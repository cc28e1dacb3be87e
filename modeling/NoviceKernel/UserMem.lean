import NoviceKernel.VmForest

/-! # Pages that user memory gets on demand (`vm.c`, `trap_handler.c`)

    `sbrk` only moves `p->sz`.  A page below it is mapped when it is first
    touched: by `pagefault_handler` if the user touches it, by `walkaddr` if the
    kernel does on the way of `copyin`, `copyout` or `copyinstr`.

    **Key theorem**: the two admit the same addresses exactly if the page that
    `p->trapframe->sp` points into is not asked for (`lazy_paths_agree_iff`). -/

namespace NoviceKernel.VM

open Hoare Ledger

/-- What `struct proc` says about user memory. -/
structure UserSpace where
  pagetable : Nat
  sz : Nat
  /-- `p->trapframe->sp`, which the user sets as it likes. -/
  sp : Nat

section Functions

variable (lay : Layout) (p : UserSpace)

/-- The physical address of `va` in user memory, or 0; `p` is the process that
    runs. -/
def walkaddr (pagetable va : Nat) : VmM Nat :=
  if va ≥ MAXVA then return 0
  else do
    let r ← walk pagetable va false
    let e ← match r with
      | none => pure 0
      | some r => loadPte r
    if e &&& PTE_V = 0 then
      if va ≥ p.sz ∨ va < PGROUNDUP p.sp then return 0
      else do
        let pa ← kalloc
        if pa = 0 then return 0
        else if (← mappages p.pagetable va PGSIZE pa (PTE_W ||| PTE_X ||| PTE_R ||| PTE_U)) ≠
            0 then do
          kfree lay pa
          return 0
        else return pa
    else if e &&& PTE_U = 0 then return 0
    else return PTE2PA e

/-- A user access to `va` did not go through (`r_stval`). -/
def pagefault_handler (va : Nat) : VmM Int := do
  let pa ← kalloc
  if pa = 0 then return -1
  else if va ≥ p.sz then do
    kfree lay pa
    return -2
  else if va < PGROUNDDOWN p.sp then do
    kfree lay pa
    return -3
  else do
    memset pa 0 PGSIZE
    if (← mappages p.pagetable (PGROUNDDOWN va) PGSIZE pa (PTE_R ||| PTE_W ||| PTE_X ||| PTE_U)) ≠
        0 then do
      kfree lay pa
      return -4
    else return 0

end Functions

/-- What a page of user memory may be used for. -/
def userPerm : Nat := PTE_W ||| PTE_X ||| PTE_R ||| PTE_U

section Lazy

variable {T Z : Type} {lay : Layout} {sel : T → Nat → Bool} {R : Handles T Z} {F : List Nat}
  {s s' : Phys} {t : T} {p : UserSpace} {va : Nat} {E : Stop → Phys → Prop} [DecidableEq T]

/-- The page of `va` is now mapped to `pg`, all else is as before. -/
def Gets (lay : Layout) (sel : T → Nat → Bool) (R : Handles T Z) (F : List Nat) (t : T)
    (va pg : Nat) (s s' : Phys) : Prop :=
  Edit lay sel R F t (· = va / PGSIZE) s (mapped (ent R s.mem t) (va / PGSIZE) 1 pg userPerm) s'

/-- Nothing is mapped that was not. -/
def Stays (lay : Layout) (sel : T → Nat → Bool) (R : Handles T Z) (F : List Nat) (t : T)
    (s s' : Phys) : Prop :=
  Edit lay sel R F t (fun _ => False) s (ent R s.mem t) s'

/-! ## What the kernel does -/

/-- `walk` without `alloc`, and the entry it finds: the entry of the map, 0 if
    there is none. -/
theorem wp_walk_entry {α : Type} {r : Nat} {f : Nat → VmM α} {Q : α → Phys → Prop}
    (hva : va < MAXVA)
    (hnone : entry s.mem r (va / PGSIZE) = none → ∀ e, e &&& PTE_V = 0 → wp (f e) Q E s)
    (hsome : ∀ e, entry s.mem r (va / PGSIZE) = some e → wp (f e) Q E s) :
    wp (do
      let pt ← walk r va false
      let e ← match pt with
        | none => pure 0
        | some pt => loadPte pt
      f e) Q E s := by
  refine (wp_walk_read hva).seq ?_
  rintro pt s1 ⟨rfl, rfl⟩
  rw [← lookup_eq hva] at hnone hsome
  unfold lookup entryAt at hnone hsome
  cases hp : node s1.mem r (.leaf (ix 2 va) (ix 1 va)) with
  | none =>
    rw [hp] at hnone
    exact hnone rfl 0 rfl
  | some pg =>
    rw [hp, Option.bind_some] at hnone hsome
    rw [Option.map_some]
    dsimp only
    rw [wp_bind, wp_loadPte]
    unfold validEntry at hnone hsome
    by_cases hval : valid (pte s1.mem pg (ix 0 va)) = true
    · rw [if_pos hval] at hsome
      exact hsome _ rfl
    · rw [if_neg hval] at hnone
      exact hnone rfl _ (not_not.mp fun hc => hval (valid_iff.mpr hc))

section

variable (hlay : lay.Ok) (h : Forest lay sel R F s) (ht : R.root t = some p.pagetable)
include hlay h ht

/-- `walkaddr` where nothing is mapped. -/
theorem wp_walkaddr_hole (hva : va < MAXVA) (hal : va % PGSIZE = 0)
    (hsel : va < p.sz → sel t (va / PGSIZE) = true) (hnone : ent R s.mem t (va / PGSIZE) = none) :
    wp (walkaddr lay p p.pagetable va) (fun pa s' =>
      pa ≠ 0 ∧
        (va < p.sz ∧ PGROUNDUP p.sp ≤ va ∧ missing s.mem p.pagetable va < s.freelist.length) ∧
        s.freelist.head? = some pa ∧ (∀ i, i < PGSIZE → s'.mem (pa + i) = 5) ∧
        Gets lay sel R F t va pa s s' ∨
      pa = 0 ∧
        ¬ (va < p.sz ∧ PGROUNDUP p.sp ≤ va ∧ missing s.mem p.pagetable va < s.freelist.length) ∧
        ¬ (va < p.sz ∧ PGROUNDUP p.sp ≤ va ∧ missing s'.mem p.pagetable va < s'.freelist.length) ∧
        Stays lay sel R F t s s') E s := by
  have hround : va / PGSIZE * PGSIZE = va := Nat.div_mul_cancel (Nat.dvd_of_mod_eq_zero hal)
  have hpage := div_lt hva
  rw [walkaddr, if_neg (by omega)]
  refine wp_walk_entry hva (fun _ e he => ?_) fun e he => ?_
  · rw [if_pos he]
    by_cases hadm : va ≥ p.sz ∨ va < PGROUNDUP p.sp
    · rw [if_pos hadm]
      exact .inr ⟨rfl, by omega, by omega, .refl h⟩
    rw [if_neg hadm]
    refine wp_kalloc_fresh hlay h (fun hnil => ?_) fun pg s1 hfresh => ?_
    · have hlen : s.freelist.length = 0 := by rw [hnil]; rfl
      exact .inr ⟨rfl, by omega, by omega, .refl h⟩
    have hmap := fun Q => hfresh.wp_map_or_free (g := pure 0) (k := pure pg) (E := E) (Q := Q)
      hlay ht (f := userPerm) (by decide) (by decide) (fun _ => hsel (by omega))
      (.inl ⟨hpage, hnone⟩)
    rw [hround] at hmap
    refine hmap _ (fun s2 hlen hlen' hedit => ?_) fun s2 _ _ hlen hbytes hedit => ?_
    · exact .inr ⟨rfl, by omega, by omega, hedit⟩
    · exact .inl ⟨hfresh.page.pos hlay, by omega, hfresh.head, hbytes, hedit⟩
  · rw [← ent_of_root ht, hnone] at he
    cases he

/-- `walkaddr` writes to the heap only. -/
theorem wp_walkaddr_below (hal : va % PGSIZE = 0) :
    wp (walkaddr lay p p.pagetable va) (fun _ s' => SameBelow lay s s') (fun _ _ => True) s := by
  have hrefl : SameBelow lay s s := fun _ _ => rfl
  have hround : va / PGSIZE * PGSIZE = va := Nat.div_mul_cancel (Nat.dvd_of_mod_eq_zero hal)
  rw [walkaddr]
  by_cases hge : va ≥ MAXVA
  · rw [if_pos hge]
    exact hrefl
  have hva : va < MAXVA := by omega
  -- a page that comes in
  have hlazy : wp (if va ≥ p.sz ∨ va < PGROUNDUP p.sp then return 0
      else do
        let pa ← kalloc
        if pa = 0 then return 0
        else if (← mappages p.pagetable va PGSIZE pa userPerm) ≠ 0 then do
          kfree lay pa
          return 0
        else return pa) (fun _ s' => SameBelow lay s s') (fun _ _ => True) s := by
    split
    · exact hrefl
    refine (wp_kalloc h.heap).seq ?_
    rintro pg s1 (⟨rfl, rfl, -⟩ | ⟨hpg, rfl⟩)
    · exact hrefl
    have hpage := (h.heap.take hpg).2.1
    have htree := (h.alloc hpg).1.tree ht
    rw [if_neg (hpage.pos hlay), wp_bind, ← hround]
    refine (wp_mappages_below hlay htree (div_lt hva)).post ?_
    intro res s2 hbelow
    have hbelow2 := (sameBelow_take hpage).trans hbelow
    split
    · exact (wp_kfree_below pg).seq fun _ s3 hbelow3 => hbelow2.trans hbelow3
    · exact hbelow2
  rw [if_neg hge]
  refine wp_walk_entry hva (fun _ e he => ?_) fun e _ => ?_
  · rw [if_pos he]
    exact hlazy
  · by_cases he : e &&& PTE_V = 0
    · rw [if_pos he]
      exact hlazy
    · rw [if_neg he]
      split
      · exact hrefl
      · exact hrefl

/-- `pagefault_handler`, for an address that is not mapped if it gets so far as
    to map it. -/
theorem wp_pagefault_handler (hsel : va / PGSIZE < NPAGES → sel t (va / PGSIZE) = true)
    (hnone : va < p.sz → PGROUNDDOWN p.sp ≤ va → s.freelist ≠ [] →
      va / PGSIZE < NPAGES ∧ ent R s.mem t (va / PGSIZE) = none ∨ ∀ e t, E e t) :
    wp (pagefault_handler lay p va) (fun res s' =>
      res = 0 ∧ va / PGSIZE < NPAGES ∧
        (va < p.sz ∧ PGROUNDDOWN p.sp ≤ va ∧
          missing s.mem p.pagetable (PGROUNDDOWN va) < s.freelist.length) ∧
        (∃ pg, s.freelist.head? = some pg ∧ (∀ i, i < PGSIZE → s'.mem (pg + i) = 0) ∧
          Gets lay sel R F t va pg s s') ∨
      (res = -1 ∨ res = -2 ∨ res = -3 ∨ res = -4) ∧
        ¬ (va < p.sz ∧ PGROUNDDOWN p.sp ≤ va ∧
          missing s.mem p.pagetable (PGROUNDDOWN va) < s.freelist.length) ∧
        Stays lay sel R F t s s') E s := by
  rw [pagefault_handler]
  refine wp_kalloc_fresh hlay h (fun hnil => ?_) fun pg s1 hfresh => ?_
  · refine .inr ⟨.inl rfl, ?_, .refl h⟩
    rw [hnil, List.length_nil]
    omega
  have hStays : ∀ s2, Forest lay sel R F s2 → Keeps sel R F Everyone s s2 →
    Stays lay sel R F t s s2 :=
    fun s2 hf hk => .of_keeps hf hk
  -- the page goes back at once if the address is refused
  by_cases hsz : va ≥ p.sz
  · rw [if_pos hsz]
    exact hfresh.wp_kfree fun s2 hf hk => .inr ⟨.inr (.inl rfl), by omega, hStays s2 hf hk⟩
  rw [if_neg hsz]
  by_cases hsp : va < PGROUNDDOWN p.sp
  · rw [if_pos hsp]
    exact hfresh.wp_kfree fun s2 hf hk => .inr ⟨.inr (.inr (.inl rfl)), by omega, hStays s2 hf hk⟩
  rw [if_neg hsp, wp_bind, wp_memset]
  have hne : s.freelist ≠ [] := by
    intro hnil
    have := hfresh.head
    rw [hnil] at this
    cases this
  refine (hfresh.fill 0).wp_map_or_free (f := userPerm) hlay ht (by decide) (by decide) hsel
    (hnone (by omega) (by omega) hne) (fun s2 hlen _ hedit => ?_)
    fun s2 hlt _ hlen hbytes hedit => ?_
  · rw [show va / PGSIZE * PGSIZE = PGROUNDDOWN va from rfl] at hlen
    exact .inr ⟨.inr (.inr (.inr rfl)), by omega, hedit⟩
  · rw [show va / PGSIZE * PGSIZE = PGROUNDDOWN va from rfl] at hlen
    exact .inl ⟨rfl, hlt, by omega, pg, hfresh.head, hbytes, hedit⟩

end

end Lazy

/-! ## The two ways to get a page -/

section Agree

variable {X : Type} {lay : Layout} {rest : X → Option Nat} {F : List Nat} {s : Phys}

/-- The owners of a forest of one tree as places of the tree and others; leaves
    own nothing. -/
def soleSlot : Owner Unit X → Node ⊕ X
  | .node _ n => .inl n
  | .leaf _ _ => .inl .root
  | .single x => .inr x

/-- A tree alone is a forest, as far as entries that are not there go. -/
theorem TreeOk.forest {root v : Nat} (h : TreeOk lay rest F root s)
    (hnone : v < NPAGES → entry s.mem root v = none) :
    Forest lay (fun _ w => w == v) ⟨fun _ : Unit => some root, rest⟩ F s := by
  have hleaf : ∀ w, own (fun _ w => w == v) ⟨fun _ : Unit => some root, rest⟩ s.mem (.leaf () w) =
      none := by
    intro w
    rw [own]
    split
    · next hw =>
      obtain rfl : w = v := beq_iff_eq.mp hw.2
      rw [ent_of_root rfl, hnone hw.1]
      rfl
    · rfl
  refine ⟨h.heap, ?_, ?_⟩
  · refine h.owns.reindex soleSlot (Sum.elim (.node ()) .single) ?_ ?_
    · intro o pg ho
      cases o with
      | node u n => exact ⟨ho, rfl⟩
      | leaf u w =>
        rw [hleaf] at ho
        cases ho
      | single x => exact ⟨ho, rfl⟩
    · rintro (n | x) pg ho
      · exact ho
      · exact ho
  · intro u r hr
    rw [← Option.some.inj hr]
    exact h.shape

/-- When `walkaddr` finds a page for an address that is not mapped. -/
theorem walkaddr_hole_iff (p : UserSpace) (va : Nat) (hlay : lay.Ok)
    (h : TreeOk lay rest F p.pagetable s) (hal : va % PGSIZE = 0)
    (hnone : va < MAXVA → lookup s.mem p.pagetable va = none) :
    (∃ pa s', walkaddr lay p p.pagetable va s = .ok pa s' ∧ pa ≠ 0) ↔
      va < MAXVA ∧ va < p.sz ∧ PGROUNDUP p.sp ≤ va ∧
      missing s.mem p.pagetable va < s.freelist.length := by
  by_cases hva : va < MAXVA
  · have hno := hnone hva
    rw [lookup_eq hva] at hno
    obtain ⟨pa, s', hrun, hpost⟩ := (wp_walkaddr_hole (E := fun _ _ => False) hlay
      (h.forest fun _ => hno) (t := ()) rfl hva hal (fun _ => beq_self_eq_true _)
      ((ent_of_root rfl).trans hno)).returns
    rw [hrun]
    rcases hpost with ⟨hpa, hadm, -⟩ | ⟨hpa, hadm, -⟩
    · exact ⟨fun _ => ⟨hva, hadm⟩, fun _ => ⟨pa, s', rfl, hpa⟩⟩
    · refine ⟨fun ⟨pa', s'', he, hne⟩ => ?_, fun hc => absurd hc.2 hadm⟩
      cases he
      exact absurd hpa hne
  · rw [walkaddr, if_pos (by omega)]
    refine ⟨fun ⟨pa, s', he, hne⟩ => ?_, fun hc => absurd hc.1 hva⟩
    cases he
    exact absurd rfl hne

/-- When `pagefault_handler` maps an address that is not mapped. -/
theorem pagefault_handler_iff (p : UserSpace) (va : Nat) (hlay : lay.Ok)
    (h : TreeOk lay rest F p.pagetable s) (hal : va % PGSIZE = 0)
    (hnone : va < MAXVA → lookup s.mem p.pagetable va = none) :
    (∃ s', pagefault_handler lay p va s = .ok 0 s') ↔
      va < MAXVA ∧ va < p.sz ∧ PGROUNDDOWN p.sp ≤ va ∧
        missing s.mem p.pagetable va < s.freelist.length := by
  have hround : PGROUNDDOWN va = va := Nat.div_mul_cancel (Nat.dvd_of_mod_eq_zero hal)
  have hno : va < MAXVA → entry s.mem p.pagetable (va / PGSIZE) = none := fun hva => by
    rw [← lookup_eq hva, hnone hva]
  by_cases hva : va < MAXVA
  · obtain ⟨res, s', hrun, hpost⟩ := (wp_pagefault_handler (E := fun _ _ => False) hlay
      (h.forest fun _ => hno hva) (t := ()) rfl (fun _ => beq_self_eq_true _) fun _ _ _ =>
        .inl ⟨div_lt hva, (ent_of_root rfl).trans (hno hva)⟩).returns
    rw [hrun, hround] at *
    rcases hpost with ⟨rfl, -, hadm, -⟩ | ⟨hres, hadm, -⟩
    · exact ⟨fun _ => ⟨hva, hadm⟩, fun _ => ⟨s', rfl⟩⟩
    · refine ⟨fun ⟨s'', he⟩ => ?_, fun hc => absurd hc.2 hadm⟩
      cases he
      omega
  · -- it stops, or refuses
    refine ⟨fun ⟨s', hrun⟩ => ?_, fun hc => absurd hc.1 hva⟩
    have hge : ¬ va / PGSIZE < NPAGES := fun hlt => hva (by
      have := page_lt hlt
      rwa [show va / PGSIZE * PGSIZE = va from hround] at this)
    rcases (wp_pagefault_handler (E := fun _ _ => True) hlay (h.forest fun hlt => absurd hlt hge)
      (t := ()) rfl (fun hlt => absurd hlt hge) fun _ _ _ => .inr fun _ _ =>
      trivial).of_ok hrun with ⟨-, hlt, -⟩ | ⟨hres, -⟩
    · exact absurd hlt hge
    · omega

/-- **The two ways agree, up to the page of the stack pointer.**  Take a process
    whose page table is well-formed and a page-aligned address that is not
    mapped, for any `sz` and any 64-bit `sp`.  `walkaddr` finds a page for it
    exactly if `pagefault_handler` would, if and only if one of these holds:

    * the address is not below `sz` and `MAXVA`, or there are too few free pages
      for its page and the page-table pages it lacks (both refuse);
    * `sp` is page-aligned;
    * the address is not that of the page that `sp` points into, and rounding
      `sp` up does not wrap.

    The cause is that one rounds `sp` up and the other down. -/
theorem lazy_paths_agree_iff (p : UserSpace) (va : Nat) (hlay : lay.Ok)
    (h : TreeOk lay rest F p.pagetable s) (hsp : p.sp < 2 ^ 64) (hal : va % PGSIZE = 0)
    (hnone : va < MAXVA → lookup s.mem p.pagetable va = none) :
    ((∃ pa s', walkaddr lay p p.pagetable va s = .ok pa s' ∧ pa ≠ 0) ↔
      ∃ s', pagefault_handler lay p va s = .ok 0 s') ↔
      (va < p.sz → va < MAXVA → missing s.mem p.pagetable va < s.freelist.length →
        p.sp % PGSIZE = 0 ∨ va ≠ PGROUNDDOWN p.sp ∧ p.sp ≤ 2 ^ 64 - PGSIZE) := by
  rw [walkaddr_hole_iff p va hlay h hal hnone, pagefault_handler_iff p va hlay h hal hnone]
  have hmax : MAXVA = 2 ^ 38 := rfl
  unfold PGROUNDUP PGROUNDDOWN
  rw [hmax, PGSIZE_eq] at *
  constructor
  · intro hiff h1 h2 h3
    simp only [h1, h2, h3, true_and, and_true] at hiff
    omega
  · intro hcond
    by_cases h1 : va < p.sz ∧ va < 2 ^ 38 ∧ missing s.mem p.pagetable va < s.freelist.length
    · have := hcond h1.1 h1.2.1 h1.2.2
      omega
    · omega

/-! Two pages of heap, none of them mapped, in the memory of four pages. -/

/-- The process with its stack pointer at `sp`. -/
def twoPages (sp : Nat) : UserSpace := ⟨fourRoot, 2 * PGSIZE, sp⟩

theorem fourPages_lookup (va : Nat) : lookup fourPages.mem fourRoot va = none := by
  unfold lookup entryAt
  rw [fourPages_node]
  rfl

theorem fourPages_missing (va : Nat) : missing fourPages.mem fourRoot va = 2 := by
  unfold missing
  rw [fourPages_node, fourPages_node]
  rfl

theorem lazy_paths_agree_iff_four :
    ((∃ pa s', walkaddr fourLayout (twoPages PGSIZE) fourRoot PGSIZE fourPages = .ok pa s' ∧
        pa ≠ 0) ↔
      ∃ s', pagefault_handler fourLayout (twoPages PGSIZE) PGSIZE fourPages = .ok 0 s') :=
  (lazy_paths_agree_iff (twoPages PGSIZE) PGSIZE fourLayout_ok fourPages_tree (by decide)
    (by decide) fun _ => fourPages_lookup _).mpr fun _ _ _ => .inl (by decide)

/-- With `sp` in the second page, a system call on that page is refused where a
    user access gets the page; with `sp` in the last page of the 64-bit range it
    is the other way round. -/
theorem lazy_paths_differ :
    fourPages.freelist ≠ [] ∧ lookup fourPages.mem fourRoot PGSIZE = none ∧
    (¬ (∃ pa s', walkaddr fourLayout (twoPages (PGSIZE + 100)) fourRoot PGSIZE fourPages =
            .ok pa s' ∧ pa ≠ 0) ∧
      ∃ s', pagefault_handler fourLayout (twoPages (PGSIZE + 100)) PGSIZE fourPages = .ok 0 s') ∧
    ((∃ pa s', walkaddr fourLayout (twoPages (2 ^ 64 - 1)) fourRoot PGSIZE fourPages = .ok pa s' ∧
        pa ≠ 0) ∧
      ¬ ∃ s', pagefault_handler fourLayout (twoPages (2 ^ 64 - 1)) PGSIZE fourPages =
            .ok 0 s') := by
  have hwalk := fun sp => walkaddr_hole_iff (twoPages sp) PGSIZE fourLayout_ok fourPages_tree
    (by decide) fun _ => fourPages_lookup _
  have hfault := fun sp => pagefault_handler_iff (twoPages sp) PGSIZE fourLayout_ok
    fourPages_tree (by decide) fun _ => fourPages_lookup _
  simp only [twoPages, fourPages_missing] at hwalk hfault
  refine ⟨by decide, fourPages_lookup _, ⟨?_, ?_⟩, ?_, ?_⟩
  · rw [twoPages, hwalk]
    decide
  · rw [twoPages, hfault]
    decide
  · rw [twoPages, hwalk]
    decide
  · rw [twoPages, hfault]
    decide

end Agree

end NoviceKernel.VM
