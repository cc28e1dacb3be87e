import NoviceKernel.ProcMem
import NoviceKernel.VmGrow

/-! # `sbrk` (`sysproc.c`)

    `sys_sbrk` moves `p->sz` and unmaps what lies above a smaller size; pages of
    a larger size come when they are touched.  The old size is an `int`, and so
    is its sum with the argument; the new size is that sum as a `uint64`.

    **Key theorem**: the call does what callers rely on exactly if the new size
    stays between 0 and `2 ^ 31` (`sys_sbrk_contract_iff`).  Otherwise it returns
    the old size, which callers take for success, and does nothing. -/

namespace NoviceKernel.ProcMem

open VM Hoare Ledger Process

/-- `sys_sbrk` of process `p` with the argument `n`. -/
def sys_sbrk (lay : Layout) (p : Fin NPROC) (n : Int) : ProcM Nat := do
  let q := (← get).proc p
  let oldsz := toInt q.sz
  -- the sum of two `int`s wraps
  let newsz := ofInt (toInt (ofInt (oldsz + n)))
  if newsz ≥ MAXVA ∨ newsz ≤ 0 then return ofInt oldsz
  else if n < 0 then do
    if (← onPhys (uvmdealloc lay q.pagetable (ofInt oldsz) newsz)) ≠ newsz then return ofInt (-1)
    else do
      setProc p fun q => { q with sz := newsz }
      return ofInt oldsz
  else do
    setProc p fun q => { q with sz := newsz }
    return ofInt oldsz

section Sbrk

variable {lay : Layout} {F : List Nat} {s s' : State} {p : Fin NPROC} {n : Int}
  {E : Stop → State → Prop} {a : Nat} {sz : Nat}

/-- A change of `struct proc` that keeps its pointers. -/
theorem handles_setProc_same {f : Proc → Proc}
    (h1 : (f (s.proc p)).trapframe = (s.proc p).trapframe)
    (h2 : (f (s.proc p)).kerntable = (s.proc p).kerntable)
    (h3 : (f (s.proc p)).pagetable = (s.proc p).pagetable) :
    (s.setProc p f).handles = s.handles := by
  rw [handles_setProc, h1, h2, h3]
  have hz : s.handles.single (.trapframe p) = ptr (s.proc p).trapframe := rfl
  have hk : s.handles.root (.kern p) = ptr (s.proc p).kerntable := rfl
  have hu : s.handles.root (.user p) = ptr (s.proc p).pagetable := rfl
  rw [setSingle_same hz, setRoot_same hk, setRoot_same hu]

/-- In the process table only the size of `p` has changed. -/
structure Resized (s : State) (p : Fin NPROC) (newsz : Nat) (s' : State) : Prop where
  handles : s'.handles = s.handles
  self : s'.proc p = { s.proc p with sz := newsz }
  others : ∀ q, q ≠ p → s'.proc q = s.proc q

theorem resized_setProc (s : State) (u : Phys) (newsz : Nat) :
    Resized s p newsz
      (({ s with phys := u } : State).setProc p fun q => { q with sz := newsz }) where
  handles := handles_setProc_same (s := { s with phys := u }) rfl rfl rfl
  self := setProc_proc_self
  others := fun _ hq => setProc_proc_of_ne hq

/-- The size of a process that is smaller than `2 ^ 31` is its `int`. -/
theorem toInt_of_lt (h : a < 2 ^ 31) : toInt a = a := by
  unfold toInt
  rw [if_pos (by omega)]
  omega

theorem ofInt_of_nonneg {i : Int} (h : 0 ≤ i) (hlt : i < 2 ^ 64) : ofInt i = i.toNat := by
  unfold ofInt
  omega

/-- The sum of the size and an `int` that does not overflow. -/
theorem sum_of_range (h : 0 < (a : Int) + n) (hlt : (a : Int) + n < 2 ^ 31) :
    ofInt (toInt (ofInt ((a : Int) + n))) = ((a : Int) + n).toNat := by
  have hin : ofInt ((a : Int) + n) = ((a : Int) + n).toNat := ofInt_of_nonneg (by omega) (by omega)
  rw [hin, toInt_of_lt (by omega), ofInt_of_nonneg (by omega) (by omega), Int.toNat_natCast]

/-- A sum that overflows is negative, so it is beyond `MAXVA` as a `uint64`; so is
    one below 0. -/
theorem sum_out_of_range (ha : a < 2 ^ 31) (h1 : -2 ^ 31 ≤ n) (h2 : n < 2 ^ 31)
    (h : ¬ (0 < (a : Int) + n ∧ (a : Int) + n < 2 ^ 31)) :
    ofInt (toInt (ofInt ((a : Int) + n))) ≥ MAXVA ∨ ofInt (toInt (ofInt ((a : Int) + n))) ≤ 0 := by
  unfold MAXVA ofInt toInt
  split
  · omega
  · omega

/-- The new size is in range. -/
theorem wp_sys_sbrk (h : Forest lay sel s.handles F s.phys) (ht : (s.proc p).pagetable ≠ 0)
    (hsz : (s.proc p).sz < 2 ^ 31) (h1 : 0 < ((s.proc p).sz : Int) + n)
    (h2 : ((s.proc p).sz : Int) + n < 2 ^ 31) :
    wp (sys_sbrk lay p n)
      (fun res s' => res = (s.proc p).sz ∧ Resized s p (((s.proc p).sz : Int) + n).toNat s' ∧
        Edit lay sel s.handles F (.user p)
          (within (((s.proc p).sz : Int) + n).toNat (s.proc p).sz) s.phys
          (without (ent s.handles s.phys.mem (.user p)) (((s.proc p).sz : Int) + n).toNat
            (s.proc p).sz)
          s'.phys ∧
        ∀ m, own sel s.handles s'.phys.mem (.node (.user p) m) =
          own sel s.handles s.phys.mem (.node (.user p) m)) E s := by
  have hmax : MAXVA = 2 ^ 38 := rfl
  have hroot : s.handles.root (.user p) = some (s.proc p).pagetable := ptr_of_ne ht
  rw [sys_sbrk, wp_bind, wp_get]
  dsimp only
  rw [toInt_of_lt hsz, sum_of_range h1 h2, ofInt_of_nonneg (by omega) (by omega), Int.toNat_natCast]
  generalize hnew : (((s.proc p).sz : Int) + n).toNat = newsz
  rw [if_neg (by omega)]
  by_cases hneg : n < 0
  · rw [if_pos hneg, wp_bind, wp_onPhys]
    refine (wp_uvmdealloc h hroot (by omega) fun w hw => ?_).post ?_
    · refine decide_eq_true ?_
      have := hw.2
      have h3 : TRAPFRAME / PGSIZE = 67108862 := rfl
      rw [PGSIZE_eq] at this
      omega
    rintro res u ⟨hres, hedit, hnodes⟩
    rw [if_neg (by omega)]
    exact ⟨rfl, resized_setProc s u newsz, hedit, hnodes⟩
  · rw [if_neg hneg]
    refine ⟨rfl, resized_setProc s s.phys newsz, (Edit.refl h).congr fun w _ => if_neg fun hw => ?_,
      fun _ => rfl⟩
    have := hw.1
    have := hw.2
    omega

/-- The size is out of range: the old size is returned and nothing is done. -/
theorem wp_sys_sbrk_out (hsz : (s.proc p).sz < 2 ^ 31) (hn1 : -2 ^ 31 ≤ n) (hn2 : n < 2 ^ 31)
    (h : ¬ (0 < ((s.proc p).sz : Int) + n ∧ ((s.proc p).sz : Int) + n < 2 ^ 31)) :
    wp (sys_sbrk lay p n) (fun res s' => res = (s.proc p).sz ∧ s' = s) E s := by
  rw [sys_sbrk, wp_bind, wp_get]
  dsimp only
  rw [toInt_of_lt hsz, if_pos (sum_out_of_range hsz hn1 hn2 h),
    ofInt_of_nonneg (by omega) (by omega), Int.toNat_natCast]
  exact ⟨rfl, rfl⟩

/-- What callers of `sbrk` rely on: it returns the old size, the new one is larger
    by `n`, and nothing is mapped above it and the pages that were there are free;
    or it returns -1 and nothing changes. -/
structure Contract (s : State) (p : Fin NPROC) (n : Int) (res : Nat) (s' : State) : Prop where
  outcome : (res = (s.proc p).sz ∧ ((s'.proc p).sz : Int) = (s.proc p).sz + n ∧
      (∀ v, PGROUNDUP (s'.proc p).sz ≤ v * PGSIZE → v * PGSIZE < TRAPFRAME →
        ent s'.handles s'.phys.mem (.user p) v = none) ∧
      ∀ v e, PGROUNDUP (s'.proc p).sz ≤ v * PGSIZE → v * PGSIZE < TRAPFRAME →
        ent s.handles s.phys.mem (.user p) v = some e → PTE2PA e ∈ s'.phys.freelist) ∨
    res = ofInt (-1) ∧ s' = s
  pos : 0 < (s'.proc p).sz
  small : (s'.proc p).sz < 2 ^ 31

/-- The contract when the new size is in range. -/
theorem contract_of_edit {newsz : Nat} (h : Forest lay sel s.handles F s.phys)
    (hok : UserOk lay s.handles s.phys.mem (.user p) (s.proc p).sz (s.proc p).trapframe)
    (hsz : (s.proc p).sz < 2 ^ 31) (hnew : (newsz : Int) = (s.proc p).sz + n) (hpos : 0 < newsz)
    (hlt : newsz < 2 ^ 31) (hs' : Resized s p newsz s')
    (hedit : Edit lay sel s.handles F (.user p) (within newsz (s.proc p).sz) s.phys
        (without (ent s.handles s.phys.mem (.user p)) newsz (s.proc p).sz) s'.phys)
    (hnodes : ∀ m, own sel s.handles s'.phys.mem (.node (.user p) m) =
        own sel s.handles s.phys.mem (.node (.user p) m)) : Contract s p n (s.proc p).sz s' := by
  have hmax : MAXVA = 2 ^ 38 := rfl
  have hframe : TRAPFRAME = 274877898752 := rfl
  have hpage : TRAPFRAME / PGSIZE = 67108862 := rfl
  -- above the old size nothing was mapped
  have habove : ∀ v, (s.proc p).sz ≤ v * PGSIZE → v * PGSIZE < TRAPFRAME →
      ent s.handles s.phys.mem (.user p) v = none := by
    intro v h1 h2
    refine hok.above v ?_ ?_
    · rw [PGROUNDUP_eq (by omega), page_div]
      rw [PGSIZE_eq] at h1
      omega
    · rw [PGSIZE_eq] at h2
      omega
  have hround : ∀ v, PGROUNDUP newsz ≤ v * PGSIZE ↔ newsz ≤ v * PGSIZE := by
    intro v
    have := lt_PGROUNDUP (a := newsz) (w := v) (by omega)
    omega
  have hpages : ∀ v, v * PGSIZE < TRAPFRAME → v < NPAGES ∧ sel (.user p) v = true := by
    intro v hv
    rw [PGSIZE_eq] at hv
    exact ⟨by rw [NPAGES_eq]; omega, decide_eq_true (by omega)⟩
  have hgone : ∀ v, newsz ≤ v * PGSIZE → v * PGSIZE < TRAPFRAME →
      ent s.handles s'.phys.mem (.user p) v = none := by
    intro v h1 h2
    rw [hedit.entries v (hpages v h2).1]
    unfold without
    by_cases hv : within newsz (s.proc p).sz v
    · rw [if_pos hv]
    · rw [if_neg hv]
      refine habove v ?_ h2
      unfold within at hv
      omega
  refine ⟨.inl ⟨rfl, ?_, ?_, ?_⟩, ?_, ?_⟩
  · rw [hs'.self]
    exact hnew
  · rw [hs'.handles, hs'.self]
    exact fun v h1 => hgone v ((hround v).mp h1)
  · rw [hs'.self]
    intro v e h1 h2 he
    have h1' := (hround v).mp h1
    have hv : within newsz (s.proc p).sz v := by
      refine ⟨h1', ?_⟩
      by_contra hc
      rw [habove v (by omega) h2] at he
      cases he
    refine hedit.freed h hnodes (fun w hw => ?_) hv (own_leaf (hpages v h2).1 (hpages v h2).2 he)
    have hlow : w * PGSIZE < TRAPFRAME := by
      have := hw.2
      omega
    rw [own, if_pos (hpages w hlow), hgone w hw.1 hlow]
    rfl
  · rw [hs'.self]
    exact hpos
  · rw [hs'.self]
    exact hlt

/-- **The contract of `sbrk` holds exactly if the new size is in range.**  For
    every process with a size between 0 and `2 ^ 31` and every `int` `n`. -/
theorem sys_sbrk_contract_iff (h : Forest lay sel s.handles F s.phys)
    (hok : UserOk lay s.handles s.phys.mem (.user p) (s.proc p).sz (s.proc p).trapframe)
    (ht : (s.proc p).pagetable ≠ 0) (hpos : 0 < (s.proc p).sz) (hsz : (s.proc p).sz < 2 ^ 31)
    (hn1 : -2 ^ 31 ≤ n) (hn2 : n < 2 ^ 31) :
    (∃ res s', sys_sbrk lay p n s = .ok res s' ∧ Contract s p n res s') ↔
      0 < ((s.proc p).sz : Int) + n ∧ ((s.proc p).sz : Int) + n < 2 ^ 31 := by
  constructor
  · rintro ⟨res, s', hrun, hc⟩
    by_contra hout
    obtain ⟨rfl, rfl⟩ := (wp_sys_sbrk_out (E := fun _ _ => False) hsz hn1 hn2 hout).of_ok hrun
    rcases hc.outcome with ⟨-, hsum, -⟩ | ⟨hres, -⟩
    · omega
    · -- the old size is not -1
      have hminus : ofInt (-1) = 2 ^ 64 - 1 := by decide
      omega
  · rintro ⟨h1, h2⟩
    obtain ⟨res, s', hrun, hres, hs', hedit, hnodes⟩ :=
      (wp_sys_sbrk (E := fun _ _ => False) h ht hsz h1 h2).returns
    refine ⟨res, s', hrun, ?_⟩
    rw [hres]
    exact contract_of_edit h hok hsz (Int.toNat_of_nonneg (by omega)) (by omega) (by omega) hs'
      hedit hnodes

/-! ### A process that has just been made -/

/-- Process `p` is in order and has the size `sz`. -/
structure Sized (lay : Layout) (s : State) (p : Fin NPROC) (sz : Nat) : Prop where
  forest : Forest lay sel s.handles [] s.phys
  user : UserOk lay s.handles s.phys.mem (.user p) (s.proc p).sz (s.proc p).trapframe
  pagetable : (s.proc p).pagetable ≠ 0
  size : (s.proc p).sz = sz

/-- A larger size with no page mapped yet. -/
theorem Resized.user_of_zero (h : Resized s p sz s') (hphys : s'.phys = s.phys)
    (hok : UserOk lay s.handles s.phys.mem (.user p) 0 (s.proc p).trapframe) (hsz : sz < 2 ^ 31) :
    UserOk lay s'.handles s'.phys.mem (.user p) (s'.proc p).sz (s'.proc p).trapframe := by
  have hmax : MAXVA = 2 ^ 38 := rfl
  have hpage : TRAPFRAME / PGSIZE = 67108862 := rfl
  have hbound : PGROUNDUP sz / PGSIZE ≤ TRAPFRAME / PGSIZE := by
    rw [PGROUNDUP_eq (by omega), page_div]
    omega
  rw [h.handles, h.self, hphys]
  exact ⟨hok.low, hbound, fun v _ hv => hok.above v (Nat.zero_le v) hv, hok.trampoline,
    hok.trapframe⟩

theorem exists_sized (hsz : sz < 2 ^ 31) : ∃ s p, Sized (bareLayout 80) s p sz := by
  have hpos : 0 < NPROC := by decide
  have hlay := bareLayout_ok (n := 80) (by omega)
  obtain ⟨r, s, -, ha⟩ :=
    (wp_allocproc_found (E := fun _ _ => False) (p := ⟨0, hpos⟩) hlay (bare_forest (by omega))
      (bare_idle 80 _).2 (by rw [bare_length]; omega)).returns
  cases ha with
  | none _ _ _ _ _ _ _ hshort =>
    rw [bare_length] at hshort
    omega
  | made _ hready hforest _ _ hzero _ =>
    have hs' := resized_setProc (p := ⟨0, hpos⟩) s s.phys sz
    have huser := hready.user
    rw [hzero] at huser
    refine ⟨_, _, hs'.handles ▸ hforest, hs'.user_of_zero rfl huser hsz, ?_, ?_⟩
    · rw [hs'.self]
      exact hready.pagetable
    · rw [hs'.self]

/-- Two pages grow by one byte. -/
theorem sys_sbrk_contract_iff_one : ∃ s p, Sized (bareLayout 80) s p (2 * PGSIZE) ∧
    ∃ res s', sys_sbrk (bareLayout 80) p 1 s = .ok res s' ∧ Contract s p 1 res s' := by
  obtain ⟨s, p, h⟩ : ∃ s p, Sized (bareLayout 80) s p (2 * PGSIZE) := exists_sized (by decide)
  have hsz := h.size
  rw [PGSIZE_eq] at hsz
  exact ⟨s, p, h,
    (sys_sbrk_contract_iff h.forest h.user h.pagetable (by omega) (by omega) (by omega)
      (by omega)).mpr (by omega)⟩

/-- A process of two pages gives all its memory back, and one of almost `2 ^ 31`
    bytes asks for 16 pages: both get the old size, and nothing has changed. -/
theorem sys_sbrk_returns_old_size :
    (∃ s p, Sized (bareLayout 80) s p (2 * PGSIZE) ∧
      sys_sbrk (bareLayout 80) p (-(2 * PGSIZE)) s = .ok (2 * PGSIZE) s) ∧
    ∃ s p, Sized (bareLayout 80) s p (2 ^ 31 - PGSIZE) ∧
      sys_sbrk (bareLayout 80) p (16 * PGSIZE) s = .ok (2 ^ 31 - PGSIZE) s := by
  -- in both cases the new size is out of range
  have hout : ∀ (sz : Nat) (n : Int), sz < 2 ^ 31 → -2 ^ 31 ≤ n → n < 2 ^ 31 →
    ¬ (0 < (sz : Int) + n ∧ (sz : Int) + n < 2 ^ 31) →
      ∃ s p, Sized (bareLayout 80) s p sz ∧ sys_sbrk (bareLayout 80) p n s = .ok sz s := by
    intro sz n hsz h1 h2 hr
    obtain ⟨s, p, h⟩ := exists_sized hsz
    rw [← h.size] at hsz hr
    obtain ⟨res, s', hrun, hres, hs'⟩ :=
      (wp_sys_sbrk_out (E := fun _ _ => False) hsz h1 h2 hr).returns
    rw [hres, hs', h.size] at hrun
    exact ⟨s, p, h, hrun⟩
  exact ⟨hout (2 * PGSIZE) (-(2 * PGSIZE)) (by decide) (by decide) (by decide) (by decide),
    hout (2 ^ 31 - PGSIZE) (16 * PGSIZE) (by decide) (by decide) (by decide) (by decide)⟩

end Sbrk

end NoviceKernel.ProcMem
