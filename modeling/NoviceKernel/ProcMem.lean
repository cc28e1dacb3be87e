import NoviceKernel.KernMap
import NoviceKernel.Proc

/-! # The memory of processes (`proc.c`)

    The process table with the page tables and pages that hang from it.

    1. **Model**: `allocproc` and `freeproc`.
    2. **Owners**: which trees and pages the process table stands for.
    3. **`freeproc`** gives back all that a process has.
    4. **`allocproc` when memory runs out**: it unwinds properly if the trapframe
       cannot be allocated or if only the user page table cannot; in between it
       panics (`allocproc_unwinds_iff`). -/

namespace NoviceKernel.ProcMem

open VM Hoare Ledger Process List

/-! ## 1. Model -/

/-- What `struct proc` says of the memory of a process, and what the functions
    that change it look at. -/
structure Proc where
  state : ProcState
  pid : BitVec 32
  parent : Option (Fin NPROC)
  xstate : BitVec 32
  trapframe : Nat
  kerntable : Nat
  kstack : Nat
  pagetable : Nat
  sz : Nat
  name : List UInt8

/-- Physical memory and the process table. -/
structure State where
  phys : Phys
  proc : Fin NPROC → Proc
  nextpid : BitVec 32
  kernel_pagetable : Nat
  /-- Pages of pipes, 0 for a pipe that is not there. -/
  pipe : Nat → Nat

abbrev ProcM := EStateM Stop State

/-- A computation on physical memory. -/
def onPhys {α : Type} (x : VmM α) : ProcM α := fun s =>
  match x s.phys with
  | .ok a p => .ok a { s with phys := p }
  | .error e p => .error e { s with phys := p }

/-- The entry of `p` in the process table changes. -/
def State.setProc (s : State) (p : Fin NPROC) (f : Proc → Proc) : State :=
  { s with proc := Function.update s.proc p (f (s.proc p)) }

def setProc (p : Fin NPROC) (f : Proc → Proc) : ProcM Unit := modify fun s => s.setProc p f

section Functions

variable (lay : Layout)

def allocpid : ProcM (BitVec 32) := do
  let s ← get
  set { s with nextpid := s.nextpid + 1 }
  return s.nextpid

/-- What an entry is after `freeproc`. -/
def Proc.cleared (p : Proc) : Proc :=
  { p with
    trapframe := 0, kerntable := 0, pagetable := 0, sz := 0, pid := 0, parent := none, name := [],
    xstate := 0, state := .UNUSED }

/-- Frees a table if there is one. -/
def free_if (a : Nat) (x : VmM Unit) : VmM Unit := if a ≠ 0 then x else pure ()

def freeproc (p : Fin NPROC) : ProcM Unit := do
  let q := (← get).proc p
  onPhys (free_if q.trapframe (kfree lay q.trapframe))
  onPhys (free_if q.pagetable (proc_freepagetable lay q.pagetable q.sz))
  onPhys (free_if q.kerntable (proc_freekernpgtbl lay q.kerntable q.kstack))
  setProc p Proc.cleared

/-- `allocproc` from `found` on. -/
def allocproc_found (p : Fin NPROC) : ProcM (Option (Fin NPROC)) := do
  let pid ← allocpid
  setProc p fun q => { q with pid := pid, state := .USED }
  let trapframe ← onPhys kalloc
  setProc p fun q => { q with trapframe := trapframe }
  if trapframe = 0 then do
    freeproc lay p
    return none
  else do
    let kerntable ← onPhys (kvminit_kern lay)
    setProc p fun q => { q with kerntable := kerntable }
    if kerntable = 0 then do
      freeproc lay p
      return none
    else do
      let pa ← onPhys kalloc
      if pa = 0 then throw (.panic "kern_pagetable kalloc")
      else do
        let va := TRAMPOLINE - 2 * PGSIZE
        let _ ← onPhys (mappages kerntable va PGSIZE pa (PTE_R ||| PTE_W))
        setProc p fun q => { q with kstack := va }
        let pagetable ← onPhys (proc_pagetable lay trapframe)
        setProc p fun q => { q with pagetable := pagetable }
        if pagetable = 0 then do
          freeproc lay p
          return none
        else return some p

/-- An UNUSED slot made ready; nothing if there is none or memory is out. -/
def allocproc : ProcM (Option (Fin NPROC)) := do
  let s ← get
  match (List.finRange NPROC).find? fun p => (s.proc p).state = .UNUSED with
  | none => return none
  | some p => allocproc_found lay p

end Functions

/-! ## 2. Owners -/

/-- The page tables: of user memory and of the kernel for each process, the one
    the kernel boots with, and one that is being built. -/
inductive Table where
  | user (p : Fin NPROC)
  | kern (p : Fin NPROC)
  | boot
  | spare
  deriving DecidableEq

/-- Pages that are not in a page table. -/
inductive Single where
  | trapframe (p : Fin NPROC)
  | pipe (n : Nat)
  deriving DecidableEq

/-- The entries that own their page: user memory and kernel stacks. -/
def sel : Table → Nat → Bool
  | .user _, v => decide (v < TRAPFRAME / PGSIZE)
  | .kern _, v => v == kstackPage
  | .boot, v => (List.range NPROC).any fun p => v == KSTACK p / PGSIZE
  | .spare, v => decide (v < TRAPFRAME / PGSIZE)

/-- A pointer that may be null. -/
def ptr (a : Nat) : Option Nat := if a = 0 then none else some a

def rootOf (s : State) : Table → Option Nat
  | .user p => ptr (s.proc p).pagetable
  | .kern p => ptr (s.proc p).kerntable
  | .boot => ptr s.kernel_pagetable
  | .spare => none

def singleOf (s : State) : Single → Option Nat
  | .trapframe p => ptr (s.proc p).trapframe
  | .pipe n => ptr (s.pipe n)

/-- What the process table stands for. -/
def State.handles (s : State) : Handles Table Single := ⟨rootOf s, singleOf s⟩

variable {f : Proc → Proc}

section Basics

variable {α : Type} {x : VmM α} {Q : α → State → Prop} {E : Stop → State → Prop} {s : State}
  {p q : Fin NPROC} {a : Nat}

@[simp] theorem wp_onPhys : wp (onPhys x) Q E s ↔
    wp x (fun a u => Q a { s with phys := u }) (fun e u => E e { s with phys := u }) s.phys := by
  unfold wp onPhys
  cases x s.phys <;> rfl

@[simp] theorem wp_setProc {Q : Unit → State → Prop} :
    wp (setProc p f) Q E s ↔ Q () (s.setProc p f) := Iff.rfl

@[simp] theorem setProc_phys : (s.setProc p f).phys = s.phys := rfl

@[simp] theorem setProc_proc_self : (s.setProc p f).proc p = f (s.proc p) :=
  Function.update_self ..

theorem setProc_proc_of_ne (h : q ≠ p) : (s.setProc p f).proc q = s.proc q :=
  Function.update_of_ne h ..

@[simp] theorem ptr_zero : ptr 0 = none := rfl

theorem ptr_of_ne (h : a ≠ 0) : ptr a = some a := if_neg h

/-- The handles depend on the pointers only. -/
theorem handles_eq {s' : State} (hproc : ∀ q, q ≠ p → s'.proc q = s.proc q)
    (hboot : s'.kernel_pagetable = s.kernel_pagetable) (hpipe : s'.pipe = s.pipe) : s'.handles =
    ((s.handles.setSingle (.trapframe p) (ptr (s'.proc p).trapframe)).setRoot (.kern p)
      (ptr (s'.proc p).kerntable)).setRoot (.user p) (ptr (s'.proc p).pagetable) := by
  refine Handles.ext (funext fun t => ?_) (funext fun z => ?_)
  · show rootOf s' t = _
    cases t with
    | user q =>
      by_cases hq : q = p
      · subst hq
        rw [setRoot_self, rootOf]
      · rw [setRoot_of_ne (by simpa using hq), setRoot_of_ne (by simp), rootOf, hproc q hq]
        rfl
    | kern q =>
      rw [setRoot_of_ne (by simp)]
      by_cases hq : q = p
      · subst hq
        rw [setRoot_self, rootOf]
      · rw [setRoot_of_ne (by simpa using hq), rootOf, hproc q hq]
        rfl
    | boot =>
      rw [setRoot_of_ne (by simp), setRoot_of_ne (by simp), rootOf, hboot]
      rfl
    | spare =>
      rw [setRoot_of_ne (by simp), setRoot_of_ne (by simp)]
      rfl
  · show singleOf s' z = _
    rw [setRoot_single, setRoot_single]
    cases z with
    | trapframe q =>
      by_cases hq : q = p
      · subst hq
        rw [setSingle_self, singleOf]
      · rw [setSingle_of_ne (by simpa using hq), singleOf, hproc q hq]
        rfl
    | pipe n =>
      rw [setSingle_of_ne (by simp), singleOf, hpipe]
      rfl

theorem handles_setProc (f : Proc → Proc) : (s.setProc p f).handles =
    ((s.handles.setSingle (.trapframe p) (ptr (f (s.proc p)).trapframe)).setRoot (.kern p)
      (ptr (f (s.proc p)).kerntable)).setRoot (.user p) (ptr (f (s.proc p)).pagetable) := by
  rw [handles_eq (p := p) (s := s) (fun q hq => setProc_proc_of_ne hq) rfl rfl, setProc_proc_self]

end Basics

/-! ## 3. `freeproc` -/

/-- User memory: leaves below `sz` only, the trampoline and the trapframe. -/
structure UserOk (lay : Layout) (R : Handles Table Single) (m : Nat → UInt8) (t : Table)
    (sz trapframe : Nat) : Prop where
  low : Low sel R m t
  bound : PGROUNDUP sz / PGSIZE ≤ TRAPFRAME / PGSIZE
  above : ∀ v, PGROUNDUP sz / PGSIZE ≤ v → v < TRAPFRAME / PGSIZE → ent R m t v = none
  trampoline : ent R m t (TRAMPOLINE / PGSIZE) = some (leafEntry lay.trampoline (PTE_R ||| PTE_X))
  trapframe : ent R m t (TRAPFRAME / PGSIZE) = some (leafEntry trapframe (PTE_R ||| PTE_W))

/-- The kernel's map of a process: that of `kvminit_kern` and a stack. -/
structure KernOk (lay : Layout) (R : Handles Table Single) (m : Nat → UInt8) (t : Table) :
    Prop where
  low : Low sel R m t
  map : ∀ v, v < NPAGES → v ≠ kstackPage → ent R m t v = kernMap lay v
  stack : ∃ pg, isPage lay pg ∧ ent R m t kstackPage = some (leafEntry pg (PTE_R ||| PTE_W))

section Free

variable {lay : Layout} {R R' : Handles Table Single} {F : List Nat} {u u' : Phys} {t : Table}
  {p : Fin NPROC} {m : Nat → UInt8} {a sz trapframe : Nat} {K : Owner Table Single → Prop}
  {E : Stop → Phys → Prop} {s : State}

theorem ent_of_same_root (h : R'.root t = R.root t) (v : Nat) : ent R' m t v = ent R m t v := by
  unfold ent
  rw [h]

theorem low_of_same_root (h : R'.root t = R.root t) (hlow : Low sel R m t) : Low sel R' m t := by
  intro i hi
  rw [own, h]
  exact hlow i hi

theorem UserOk.of_root (h : UserOk lay R m t sz trapframe) (hr : R'.root t = R.root t) :
    UserOk lay R' m t sz trapframe where
  low := low_of_same_root hr h.low
  bound := h.bound
  above := fun v h1 h2 => (ent_of_same_root hr v).trans (h.above v h1 h2)
  trampoline := (ent_of_same_root hr _).trans h.trampoline
  trapframe := (ent_of_same_root hr _).trans h.trapframe

theorem UserOk.keeps (h : UserOk lay R u.mem t sz trapframe) (hk : Keeps sel R F K u u')
    (hK : ∀ n, K (.node t n)) : UserOk lay R u'.mem t sz trapframe where
  low := hk.low hK h.low
  bound := h.bound
  above := fun v h1 h2 => (hk.ent hK v).trans (h.above v h1 h2)
  trampoline := (hk.ent hK _).trans h.trampoline
  trapframe := (hk.ent hK _).trans h.trapframe

theorem KernOk.of_root (h : KernOk lay R m t) (hr : R'.root t = R.root t) : KernOk lay R' m t where
  low := low_of_same_root hr h.low
  map := fun v h1 h2 => (ent_of_same_root hr v).trans (h.map v h1 h2)
  stack := by
    rw [ent_of_same_root hr]
    exact h.stack

theorem KernOk.keeps (h : KernOk lay R u.mem t) (hk : Keeps sel R F K u u')
    (hK : ∀ n, K (.node t n)) : KernOk lay R u'.mem t where
  low := hk.low hK h.low
  map := fun v h1 h2 => (hk.ent hK v).trans (h.map v h1 h2)
  stack := by
    rw [hk.ent hK]
    exact h.stack

theorem KernOk.range (h : KernOk lay R m t) (hlay : lay.Ok) (hstop : lay.etext < PHYSTOP)
    {x : Range} (hx : x ∈ kernRanges lay) {v : Nat} (hv : x.has v) :
    ent R m t v = some (x.entry v) := by
  have hnum := (kernRanges_has hlay hstop v).mp ⟨x, hx, hv⟩
  have h1 : kstackPage = 67108861 := rfl
  have h2 : NPAGES = 67108864 := rfl
  rw [h.map v (by omega) (by omega), kernMap, mapAll_in (kernRanges_apart hlay hstop) hx hv]

theorem KernOk.stack_used (h : KernOk lay R u.mem (.kern p)) (hf : Forest lay sel R F u) :
    ∃ pg, used lay u pg ∧
      ent R u.mem (.kern p) kstackPage = some (leafEntry pg (PTE_R ||| PTE_W)) := by
  obtain ⟨pg, hpage, hent⟩ := h.stack
  refine ⟨pg, hf.owns.used_of_own (s := .leaf (.kern p) kstackPage) ?_, hent⟩
  have hal := hpage.1
  have hround : pg / 4096 * 4096 = pg := Nat.div_mul_cancel (Nat.dvd_of_mod_eq_zero hal)
  rw [own, if_pos ⟨by decide, beq_self_eq_true kstackPage⟩, hent, Option.map_some,
    PTE2PA_leafEntry (by decide) hpage.lt, hround]

/-- The trapframe. -/
theorem wp_free_trapframe (h : Forest lay sel R F u) (hz : R.single (.trapframe p) = ptr a) :
    wp (free_if a (kfree lay a))
      (fun _ u' => Forest lay sel (R.setSingle (.trapframe p) none) F u' ∧
        Keeps sel (R.setSingle (.trapframe p) none) F Everyone u u') E u := by
  unfold free_if
  by_cases ha : a = 0
  · subst ha
    rw [ptr_zero] at hz
    rw [if_neg (by simp), setSingle_same hz]
    exact ⟨h, .refl u⟩
  · rw [if_pos ha]
    rw [ptr_of_ne ha] at hz
    have hd := h.drop hz
    refine (wp_kfree hd.heap (hd.owns.used_of_mem mem_cons_self)).post ?_
    rintro - _ rfl
    exact hd.give

theorem wp_free_user (h : Forest lay sel R F u) (ht : R.root (.user p) = ptr a)
    (hok : a ≠ 0 → UserOk lay R u.mem (.user p) sz trapframe) :
    wp (free_if a (proc_freepagetable lay a sz)) (fun _ u' => Forest lay sel
        (R.setRoot (.user p) none) F u' ∧ Keeps sel (R.setRoot (.user p) none) F Everyone u u') E
      u := by
  unfold free_if
  by_cases ha : a = 0
  · subst ha
    rw [ptr_zero] at ht
    rw [if_neg (by simp), setRoot_same ht]
    exact ⟨h, .refl u⟩
  · rw [if_pos ha]
    rw [ptr_of_ne ha] at ht
    have huser := hok ha
    refine (wp_proc_freepagetable h ht huser.low huser.bound (fun v => decide_eq_true_iff)
      huser.above).post ?_
    rintro - u' ⟨hf, hk⟩
    exact ⟨hf, hk.uproot⟩

theorem wp_free_kern (hlay : lay.Ok) (h : Forest lay sel R F u) (ht : R.root (.kern p) = ptr a)
    {kstack : Nat} (hok : a ≠ 0 → KernOk lay R u.mem (.kern p) ∧ kstack = TRAMPOLINE - 2 * PGSIZE) :
    wp (free_if a (proc_freekernpgtbl lay a kstack)) (fun _ u' => Forest lay sel
        (R.setRoot (.kern p) none) F u' ∧ Keeps sel (R.setRoot (.kern p) none) F Everyone u u') E
      u := by
  unfold free_if
  by_cases ha : a = 0
  · subst ha
    rw [ptr_zero] at ht
    rw [if_neg (by simp), setRoot_same ht]
    exact ⟨h, .refl u⟩
  · rw [if_pos ha]
    rw [ptr_of_ne ha] at ht
    obtain ⟨hkern, rfl⟩ := hok ha
    -- a page in use is behind the kernel
    have hstop : lay.etext < PHYSTOP := by
      have hpage := (h.used_node (n := .root) ht rfl).1
      have := hlay.etext_le
      unfold isPage at hpage
      omega
    have hwp := wp_proc_freekernpgtbl (E := E) hlay hstop h ht hkern.low (fun v => beq_iff_eq)
        fun v hv hne hout => by
      rw [hkern.map v hv hne, kernMap, mapAll_out hout]
    refine hwp.post ?_
    rintro - u' ⟨hf, hk⟩
    exact ⟨hf, hk.uproot⟩

/-- What `freeproc` needs of process `p`. -/
structure ProcOk (lay : Layout) (s : State) (p : Fin NPROC) : Prop where
  user : (s.proc p).pagetable ≠ 0 →
    UserOk lay s.handles s.phys.mem (.user p) (s.proc p).sz (s.proc p).trapframe
  kern : (s.proc p).kerntable ≠ 0 →
    KernOk lay s.handles s.phys.mem (.kern p) ∧ (s.proc p).kstack = TRAMPOLINE - 2 * PGSIZE

theorem handles_cleared : (s.setProc p Proc.cleared).handles =
    ((s.handles.setSingle (.trapframe p) none).setRoot (.user p) none).setRoot (.kern p) none := by
  rw [handles_setProc, setRoot_comm (by simp)]
  rfl

/-- All pages of the process are free again, those of others are untouched. -/
theorem wp_freeproc {E : Stop → State → Prop} (hlay : lay.Ok)
    (h : Forest lay sel s.handles F s.phys) (hok : ProcOk lay s p) :
    wp (freeproc lay p) (fun _ s' => s' = { s.setProc p Proc.cleared with phys := s'.phys } ∧
      Forest lay sel s'.handles F s'.phys ∧ Keeps sel s'.handles F Everyone s.phys s'.phys)
      E s := by
  simp only [freeproc, wp_bind, wp_get, wp_onPhys, wp_setProc]
  refine (wp_free_trapframe h rfl).post ?_
  rintro - u1 ⟨hf1, hk1⟩
  have huser : (s.proc p).pagetable ≠ 0 →
    UserOk lay (s.handles.setSingle (.trapframe p) none) u1.mem (.user p)
      (s.proc p).sz (s.proc p).trapframe := fun ha =>
    (UserOk.of_root (hok.user ha) (by exact rfl)).keeps hk1 fun _ => trivial
  refine (wp_free_user hf1 rfl huser).post ?_
  rintro - u2 ⟨hf2, hk2⟩
  have hk2' : Keeps sel ((s.handles.setSingle (.trapframe p) none).setRoot (.user p) none) F
    Everyone s.phys u2 :=
    (Keeps.uproot (V := fun _ => True) (hk1.weaken (fun _ _ => trivial) fun _ hm => hm)).trans hk2
  have hroot : ((s.handles.setSingle (.trapframe p) none).setRoot (.user p) none).root (.kern p) =
      s.handles.root (.kern p) := setRoot_of_ne (by simp)
  refine (wp_free_kern hlay hf2 (p := p) hroot fun ha => ?_).post ?_
  · obtain ⟨hkern, hst⟩ := hok.kern ha
    exact ⟨(hkern.of_root hroot).keeps hk2' fun _ => trivial, hst⟩
  rintro - u3 ⟨hf3, hk3⟩
  have hhand : (({ s with phys := u3 } : State).setProc p Proc.cleared).handles =
      ((s.handles.setSingle (.trapframe p) none).setRoot (.user p) none).setRoot (.kern p) none :=
    handles_cleared (s := { s with phys := u3 })
  rw [hhand]
  refine ⟨rfl, hf3, ?_⟩
  exact (Keeps.uproot (V := fun _ => True) (hk2'.weaken (fun _ _ => trivial) fun _ hm => hm)).trans
    hk3

end Free

/-! ## 4. `allocproc` -/

/-- An entry of the process table that holds nothing. -/
structure Idle (q : Proc) : Prop where
  trapframe : q.trapframe = 0
  kerntable : q.kerntable = 0
  pagetable : q.pagetable = 0
  sz : q.sz = 0

/-- Process `p` has all that `allocproc` is to give it. -/
structure Ready (lay : Layout) (s : State) (p : Fin NPROC) : Prop where
  state : (s.proc p).state = .USED
  trapframe : used lay s.phys (s.proc p).trapframe
  /-- Every range of `kvminit_kern` is mapped. -/
  ranges : ∀ x ∈ kernRanges lay, ∀ v, x.has v →
    entry s.phys.mem (s.proc p).kerntable v = some (x.entry v)
  kstack : (s.proc p).kstack = TRAMPOLINE - 2 * PGSIZE
  stack : ∃ pg, used lay s.phys pg ∧
    entry s.phys.mem (s.proc p).kerntable kstackPage = some (leafEntry pg (PTE_R ||| PTE_W))
  kern : KernOk lay s.handles s.phys.mem (.kern p)
  user : UserOk lay s.handles s.phys.mem (.user p) (s.proc p).sz (s.proc p).trapframe
  kerntable : (s.proc p).kerntable ≠ 0
  pagetable : (s.proc p).pagetable ≠ 0

variable {R : Handles Table Single} {u u' : Phys} {n : Nat}

section Alloc

variable {lay : Layout} {F : List Nat} {p : Fin NPROC} {s s' : State} {E : Stop → State → Prop}

/-- What `allocproc` comes to for slot `p`. -/
inductive Alloced (lay : Layout) (F : List Nat) (p : Fin NPROC) (s : State) : Option (Fin NPROC) →
  State → Prop
  | made (s' : State) : Ready lay s' p → Forest lay sel s'.handles F s'.phys →
      Keeps sel s.handles F Everyone s.phys s'.phys → (∀ q, q ≠ p → s'.proc q = s.proc q) →
      (s'.proc p).sz = 0 → s'.phys.freelist.length + 77 = s.phys.freelist.length →
      Alloced lay F p s (some p) s'
  | none (s' : State) : s'.handles = s.handles → Forest lay sel s.handles F s'.phys →
      Keeps sel s.handles F Everyone s.phys s'.phys → (∀ q, q ≠ p → s'.proc q = s.proc q) →
      (s'.proc p).state = .UNUSED → Idle (s'.proc p) → s.phys.freelist.length < 77 →
      Alloced lay F p s none s'

/-- A slot that holds nothing is not in the handles. -/
theorem handles_idle (hidle : Idle (s.proc p)) : s.handles.root (.user p) = none ∧
    s.handles.root (.kern p) = none ∧ s.handles.single (.trapframe p) = none := by
  refine ⟨?_, ?_, ?_⟩
  · show ptr _ = _
    rw [hidle.pagetable, ptr_zero]
  · show ptr _ = _
    rw [hidle.kerntable, ptr_zero]
  · show ptr _ = _
    rw [hidle.trapframe, ptr_zero]

/-- A page for the stack, mapped in the kernel table. -/
theorem wp_kern_stack {E : Stop → Phys → Prop} {kt : Nat} (hlay : lay.Ok)
    (hstop : lay.etext < PHYSTOP) (ht : R.root (.kern p) = none)
    (hplant : Planted lay sel R F (.kern p) kt (kernMap lay) u u')
    (htab : tables u'.mem kt = {.root} ∪ {n | touched (kernRanges lay) n}) :
    wp kalloc (fun pg u₁ =>
      pg = 0 ∧ u'.freelist = [] ∨
      pg ≠ 0 ∧ wp (mappages kt (kstackPage * PGSIZE) PGSIZE pg (PTE_R ||| PTE_W))
        (fun _ u₂ => u'.freelist.length = u₂.freelist.length + 1 ∧ isPage lay pg ∧
          Planted lay sel R F (.kern p) kt
            (mapped (kernMap lay) kstackPage 1 pg (PTE_R ||| PTE_W)) u u₂) E u₁) E u' := by
  refine (wp_kalloc hplant.forest.heap).post ?_
  rintro pg u₁ (⟨rfl, -, hnil⟩ | ⟨hpg, rfl⟩)
  · exact .inl ⟨rfl, hnil⟩
  have hfresh := hplant.forest.fresh hpg
  refine .inr ⟨hfresh.page.pos hlay, ?_⟩
  generalize u'.take pg = u₁ at hfresh
  have hone : ent (R.setRoot (.kern p) (some kt)) u₁.mem (.kern p) kstackPage = none := by
    rw [hfresh.keeps.ent fun _ => trivial, hplant.entries _ (by decide), kernMap, mapAll_out]
    intro x hx hc
    have := (kernRanges_has hlay hstop kstackPage).mp ⟨x, hx, hc⟩
    have hst : kstackPage = 67108861 := rfl
    omega
  have hmiss : missing u₁.mem kt (kstackPage * PGSIZE) = 0 :=
    (missing_congr _ (hfresh.keeps.node (fun _ => trivial) setRoot_self)).trans
    (missing_kstack hlay hstop htab)
  refine (wp_mappages_owned hlay hfresh.forest setRoot_self (by decide) (by decide)
    (fun _ => beq_self_eq_true kstackPage) (.inl ⟨by decide, hone⟩)).post ?_
  rw [hmiss]
  rintro res u₂ (⟨rfl, -, -, hlen, -, he⟩ | ⟨-, hc, -⟩)
  · have hcongr : ent (R.setRoot (.kern p) (some kt)) u₁.mem (.kern p) =
        ent (R.setRoot (.kern p) (some kt)) u'.mem (.kern p) :=
        funext (hfresh.keeps.ent fun _ => trivial)
    rw [hcongr] at he
    exact ⟨by rw [hfresh.length]; omega, hfresh.page, hplant.map ht (.after hfresh.keeps he)⟩
  · exact absurd hc (Nat.not_lt_zero _)

theorem kernOk_of_planted {kt pg : Nat}
    (h : Planted lay sel R F (.kern p) kt
      (mapped (kernMap lay) kstackPage 1 pg (PTE_R ||| PTE_W)) u u') (hpg : isPage lay pg) :
    KernOk lay (R.setRoot (.kern p) (some kt)) u'.mem (.kern p) where
  low := h.low
  map := fun v hv hne => (h.entries v hv).trans (if_neg (by omega))
  stack := by
    refine ⟨pg, hpg, (h.entries _ (by decide)).trans ((if_pos (by omega)).trans ?_)⟩
    rw [Nat.sub_self, Nat.zero_mul, Nat.add_zero, Nat.mod_eq_of_lt hpg.lt]

theorem userOk_of_planted {pt trapframe : Nat} (hlay : lay.Ok)
    (htf : trapframe < 2 ^ 64) (h : Planted lay sel R F (.user p) pt (userMap lay trapframe) u u') :
    UserOk lay (R.setRoot (.user p) (some pt)) u'.mem (.user p) 0 trapframe where
  low := h.low
  bound := by decide
  above := fun v _ hv => by
    have h1 : TRAMPOLINE / PGSIZE = 67108863 := rfl
    have h2 : TRAPFRAME / PGSIZE = 67108862 := rfl
    have h3 : NPAGES = 67108864 := rfl
    rw [h.entries v (by omega), userMap, mapped, if_neg (by omega), mapped, if_neg (by omega)]
  trampoline := by
    have h1 := hlay.trampoline_lt
    have h2 := hlay.etext_le
    have h3 := hlay.ends_le
    have h4 := kernAddr_eq.2.1
    rw [h.entries _ (by decide), userMap, mapped, if_neg (by decide), mapped, if_pos (by decide),
      Nat.sub_self, Nat.zero_mul, Nat.add_zero, Nat.mod_eq_of_lt (by omega)]
  trapframe := by
    rw [h.entries _ (by decide), userMap, mapped, if_pos (by decide), Nat.sub_self, Nat.zero_mul,
      Nat.add_zero, Nat.mod_eq_of_lt htf]

/-- `allocproc` gives up: what it has got so far goes back. -/
theorem wp_unwind {X : State} (hlay : lay.Ok) (hidle : Idle (s.proc p)) (hother : ∀ q, q ≠ p →
  X.proc q = s.proc q)
    (hboot : X.kernel_pagetable = s.kernel_pagetable) (hpipe : X.pipe = s.pipe)
    (hforest : Forest lay sel X.handles F X.phys) (hok : ProcOk lay X p)
    (hkeeps : Keeps sel s.handles F Everyone s.phys X.phys) (hlen : s.phys.freelist.length < 77) :
    wp (do freeproc lay p; return none) (fun r s' => Alloced lay F p s r s') E X := by
  obtain ⟨hruser, hrkern, hrframe⟩ := handles_idle hidle
  refine (wp_freeproc hlay hforest hok).seq ?_
  rintro - s' ⟨hs', hf', hk'⟩
  have hcleared : s'.proc p = (X.proc p).cleared := by
    rw [hs']
    exact setProc_proc_self
  have hother' : ∀ q, q ≠ p → s'.proc q = s.proc q := by
    intro q hq
    rw [hs']
    exact (setProc_proc_of_ne hq).trans (hother q hq)
  have hsame : s'.handles = s.handles := by
    rw [handles_eq hother' (by rw [hs']; exact hboot) (by rw [hs']; exact hpipe), hcleared]
    show ((s.handles.setSingle (.trapframe p) none).setRoot (.kern p) none).setRoot (.user p) none =
      s.handles
    rw [setSingle_same hrframe, setRoot_same hrkern, setRoot_same hruser]
  rw [hsame] at hf' hk'
  exact .none s' hsame hf' (hkeeps.trans hk') hother' (by rw [hcleared]; rfl)
    (by rw [hcleared]; exact ⟨rfl, rfl, rfl, rfl⟩) hlen

section

variable (hlay : lay.Ok) (h : Forest lay sel s.handles F s.phys) (hidle : Idle (s.proc p))
include hlay h hidle

/-- With 74 pages, only the user page table can be missing, and all is given
    back. -/
theorem wp_allocproc_found (hlen : 74 ≤ s.phys.freelist.length) :
    wp (allocproc_found lay p) (fun r s' => Alloced lay F p s r s') E s := by
  obtain ⟨hruser, hrkern, hrframe⟩ := handles_idle hidle
  have hstop := etext_lt hlay h (by omega)
  simp only [allocproc_found, allocpid, wp_bind, wp_get, wp_set, wp_pure, wp_onPhys, wp_setProc,
    setProc_phys]
  -- the trapframe
  refine (wp_kalloc h.heap).post ?_
  rintro tf u1 (⟨rfl, rfl, hnil⟩ | ⟨htf, rfl⟩)
  · rw [hnil] at hlen
    cases hlen
  have hfresh := h.fresh htf
  have hlen1 := hfresh.length
  have htf0 := hfresh.page.pos hlay
  rw [if_neg htf0]
  simp only [wp_bind, wp_onPhys, wp_setProc, setProc_phys]
  generalize s.phys.take tf = u1 at hfresh hlen1
  have hf1 := hfresh.forest.hold hrframe
  have hk1 := hfresh.keeps
  -- the kernel table
  have hkern1 : (s.handles.setSingle (.trapframe p) (some tf)).root (.kern p) = none := hrkern
  refine (wp_kvminit_kern hlay hf1 hkern1 (fun v hv => beq_iff_eq.mp hv) (by omega)).post ?_
  rintro kt u2 ⟨hkt, hp2, hlen2, htab⟩
  rw [if_neg hkt]
  simp only [wp_bind, wp_onPhys]
  refine (wp_kern_stack hlay hstop hkern1 hp2 htab).post ?_
  rintro pg u3 (⟨rfl, hnil⟩ | ⟨hpg, hmap⟩)
  · rw [hnil, length_nil] at hlen2
    omega
  rw [if_neg hpg]
  simp only [wp_bind, wp_onPhys, wp_setProc, setProc_phys]
  refine hmap.post ?_
  rintro - u4 ⟨hlen4, hpage, hp4⟩
  have hp4k := kernOk_of_planted hp4 hpage
  -- what stays as it is while the user table is built
  have hrest : ∀ u5, Keeps sel ((s.handles.setSingle (.trapframe p) (some tf)).setRoot (.kern p)
    (some kt)) F Everyone
      u4 u5 → Keeps sel s.handles F Everyone s.phys u5 ∧
        KernOk lay ((s.handles.setSingle (.trapframe p) (some tf)).setRoot (.kern p) (some kt))
        u5.mem (.kern p) := by
    intro u5 hk
    have hk' := Keeps.uproot (t := .kern p) (V := fun _ => True)
      (hk.weaken (fun _ _ => trivial) fun _ hm => hm)
    rw [setRoot_setRoot, setRoot_same hkern1] at hk'
    have hk'' := Keeps.drop (z := .trapframe p) (hp4.keeps.trans hk') fun _ _ => trivial
    rw [setSingle_setSingle, setSingle_same hrframe] at hk''
    exact ⟨hk1.trans hk'', hp4k.keeps hk fun _ => trivial⟩
  -- the user table
  have huser4 : ((s.handles.setSingle (.trapframe p) (some tf)).setRoot (.kern p) (some kt)).root
    (.user p) = none :=
    (setRoot_of_ne (by simp)).trans hruser
  refine (wp_proc_pagetable hlay hp4.forest huser4 (fun v hv => decide_eq_false (by omega))
    hfresh.page.lt).post ?_
  rintro pt u5 hcase
  generalize hX : State.setProc _ p _ = X
  have hphys : X.phys = u5 := by rw [← hX]; rfl
  have hself : X.proc p = { s.proc p with
      pid := s.nextpid, state := .USED, trapframe := tf, kerntable := kt, kstack :=
      TRAMPOLINE - 2 * PGSIZE, pagetable := pt } := by
    rw [← hX]
    simp [State.setProc]
  have hother : ∀ q, q ≠ p → X.proc q = s.proc q := by
    intro q hq
    rw [← hX]
    simp [State.setProc, hq]
  have hboot : X.kernel_pagetable = s.kernel_pagetable := by rw [← hX]; rfl
  have hpipe : X.pipe = s.pipe := by rw [← hX]; rfl
  have hhand : X.handles =
      ((s.handles.setSingle (.trapframe p) (some tf)).setRoot (.kern p) (some kt)).setRoot
        (.user p) (ptr pt) := by
    rw [handles_eq hother hboot hpipe, hself, ptr_of_ne htf0, ptr_of_ne hkt]
  clear hX
  rcases hcase with ⟨hpt, hlen5, hp5⟩ | ⟨rfl, hlen5, hf5, hk5⟩
  · rw [if_neg hpt, wp_pure]
    rw [ptr_of_ne hpt] at hhand
    obtain ⟨hkeeps, hkern5⟩ := hrest u5 hp5.keeps
    have hforest : Forest lay sel X.handles F X.phys := by
      rw [hhand, hphys]
      exact hp5.forest
    have hkern : KernOk lay X.handles X.phys.mem (.kern p) := by
      rw [hhand, hphys]
      exact hkern5.of_root (setRoot_of_ne (by simp))
    have hroot : X.handles.root (.kern p) = some kt := by
      rw [hhand, setRoot_of_ne (by simp), setRoot_self]
    refine .made X ⟨?_, ?_, ?_, ?_, ?_, hkern, ?_, ?_, ?_⟩ hforest (hphys ▸ hkeeps) hother ?_ ?_
    · rw [hself]
    · refine hforest.owns.used_of_own (s := .single (.trapframe p)) ?_
      rw [hself, hhand]
      exact setSingle_self
    · intro x hx v hv
      rw [hself, ← ent_of_root hroot]
      exact hkern.range hlay hstop hx hv
    · rw [hself]
    · rw [hself]
      obtain ⟨pg', hused, hent⟩ := hkern.stack_used hforest
      exact ⟨pg', hused, (ent_of_root hroot).symm.trans hent⟩
    · rw [hself, hhand, hphys]
      exact hidle.sz ▸ userOk_of_planted hlay hfresh.page.lt hp5
    · rw [hself]
      exact hkt
    · rw [hself]
      exact hpt
    · rw [hself]
      exact hidle.sz
    · rw [hphys]
      omega
  · -- all is given back
    rw [if_pos rfl]
    rw [ptr_zero, setRoot_same huser4] at hhand
    obtain ⟨hkeeps, hkern5⟩ := hrest u5 hk5
    have hforest : Forest lay sel X.handles F X.phys := by
      rw [hhand, hphys]
      exact hf5
    have hok : ProcOk lay X p := by
      refine ⟨fun hc => absurd (by rw [hself]) hc, fun _ => ⟨?_, by rw [hself]⟩⟩
      rw [hhand, hphys]
      exact hkern5
    exact wp_unwind hlay hidle hother hboot hpipe hforest hok (hphys ▸ hkeeps) (by omega)

omit hlay h hidle in
theorem wp_kalloc_nil {Q : Nat → Phys → Prop} {E : Stop → Phys → Prop} (hnil : u.freelist = []) :
    wp kalloc Q E u ↔ Q 0 u := by
  rw [kalloc, wp_bind, wp_get, hnil]
  rfl

/-- Without a page for the trapframe nothing happens. -/
theorem wp_allocproc_found_nil (hnil : s.phys.freelist = []) :
    wp (allocproc_found lay p) (fun r s' => Alloced lay F p s r s') E s := by
  obtain ⟨hruser, hrkern, hrframe⟩ := handles_idle hidle
  simp only [allocproc_found, allocpid, wp_bind, wp_get, wp_set, wp_pure, wp_onPhys, wp_setProc,
    setProc_phys]
  refine (wp_kalloc h.heap).post ?_
  rintro tf u (⟨rfl, rfl, -⟩ | ⟨htf, -⟩)
  case inr =>
    rw [hnil] at htf
    cases htf
  rw [if_pos rfl]
  generalize hX : State.setProc _ p _ = X
  have hphys : X.phys = s.phys := by rw [← hX]; rfl
  have hself : X.proc p = { s.proc p with pid := s.nextpid, state := .USED, trapframe := 0 } := by
    rw [← hX]
    simp [State.setProc]
  have hother : ∀ q, q ≠ p → X.proc q = s.proc q := by
    intro q hq
    rw [← hX]
    simp [State.setProc, hq]
  have hboot : X.kernel_pagetable = s.kernel_pagetable := by rw [← hX]; rfl
  have hpipe : X.pipe = s.pipe := by rw [← hX]; rfl
  have hhand : X.handles = s.handles := by
    rw [handles_eq hother hboot hpipe, hself, hidle.kerntable, hidle.pagetable, ptr_zero,
      setSingle_same hrframe, setRoot_same hrkern, setRoot_same hruser]
  have hok : ProcOk lay X p := by
    refine ⟨fun hc => absurd ?_ hc, fun hc => absurd ?_ hc⟩
    · rw [hself]
      exact hidle.pagetable
    · rw [hself]
      exact hidle.kerntable
  refine wp_unwind hlay hidle hother hboot hpipe (by rw [hhand, hphys]; exact h) hok
    (hphys ▸ .refl _) ?_
  rw [hnil, length_nil]
  omega

/-- With 1 to 73 pages it does not return. -/
theorem wp_allocproc_found_stops
    (hpos : 0 < s.phys.freelist.length) (hlen : s.phys.freelist.length < 74) :
    wp (allocproc_found lay p) (fun _ _ => False) (fun _ _ => True) s := by
  obtain ⟨hruser, hrkern, hrframe⟩ := handles_idle hidle
  simp only [allocproc_found, allocpid, wp_bind, wp_get, wp_set, wp_pure, wp_onPhys, wp_setProc,
    setProc_phys]
  refine (wp_kalloc h.heap).post ?_
  rintro tf u1 (⟨rfl, rfl, hnil⟩ | ⟨htf, rfl⟩)
  · rw [hnil] at hpos
    cases hpos
  have hfresh := h.fresh htf
  have hlen1 := hfresh.length
  rw [if_neg (hfresh.page.pos hlay)]
  simp only [wp_bind, wp_onPhys, wp_setProc, setProc_phys]
  generalize s.phys.take tf = u1 at hfresh hlen1
  have hf1 := hfresh.forest.hold hrframe
  have hkern1 : (s.handles.setSingle (.trapframe p) (some tf)).root (.kern p) = none := hrkern
  have hsel : ∀ v, sel (.kern p) v = true → v = kstackPage := fun v hv => beq_iff_eq.mp hv
  -- either way the free list is empty after `kvminit_kern`
  have hkv : wp (kvminit_kern lay) (fun kt u => kt ≠ 0 ∧ u.freelist = []) (fun _ _ => True) u1 := by
    by_cases h72 : u1.freelist.length < 72
    · exact wp_kvminit_kern_short hlay hf1 hkern1 hsel h72
    · refine (wp_kvminit_kern hlay hf1 hkern1 hsel (by omega)).post ?_
      rintro kt u ⟨hkt, -, hlen2, -⟩
      exact ⟨hkt, length_eq_zero_iff.mp (by omega)⟩
  refine hkv.post ?_
  rintro kt u2 ⟨hkt, hnil⟩
  rw [if_neg hkt]
  simp only [wp_bind, wp_onPhys]
  refine (wp_kalloc_nil hnil).mpr ?_
  rw [if_pos rfl]
  trivial

end

/-- What `allocproc` is to do: make an UNUSED slot a complete process, or return 0
    with the slots in the state they were in and the same pages free. -/
def Unwinds (lay : Layout) (s : State) : Option (Fin NPROC) → State → Prop
  | some p, s' => (s.proc p).state = .UNUSED ∧ Ready lay s' p
  | none, s' => (∀ q, (s'.proc q).state = (s.proc q).state) ∧ s'.phys.freelist.Perm s.phys.freelist

theorem Alloced.unwinds {r : Option (Fin NPROC)} (h : Forest lay sel s.handles F s.phys)
    (hp : (s.proc p).state = .UNUSED) (ha : Alloced lay F p s r s') : Unwinds lay s r s' := by
  cases ha with
  | made _ hready => exact ⟨hp, hready⟩
  | none _ _ hf hk hother hstate =>
    refine ⟨fun q => ?_, h.freelist_perm hf hk⟩
    by_cases hq : q = p
    · rw [hq, hstate, hp]
    · rw [hother q hq]

/-- The slot that `allocproc` takes. -/
theorem wp_allocproc (lay : Layout) (hslot : ∃ q, (s.proc q).state = .UNUSED) :
    ∃ p, (s.proc p).state = .UNUSED ∧
      ∀ Q E, wp (allocproc_found lay p) Q E s → wp (allocproc lay) Q E s := by
  have hsome : ((finRange NPROC).find? fun q => (s.proc q).state = .UNUSED).isSome := by
    rw [find?_isSome]
    obtain ⟨q, hq⟩ := hslot
    exact ⟨q, mem_finRange q, by simpa using hq⟩
  obtain ⟨p, hp⟩ := Option.isSome_iff_exists.mp hsome
  refine ⟨p, by simpa using find?_some hp, fun Q E h => ?_⟩
  rw [allocproc, wp_bind, wp_get, hp]
  exact h

/-- **`allocproc` when memory runs out**: with `k` free pages it succeeds or
    unwinds if and only if `k` is 0 or at least 74. -/
theorem allocproc_unwinds_iff (hlay : lay.Ok) (h : Forest lay sel s.handles F s.phys)
    (hidle : ∀ q, (s.proc q).state = .UNUSED → Idle (s.proc q))
    (hslot : ∃ q, (s.proc q).state = .UNUSED) :
    (∃ r s', allocproc lay s = .ok r s' ∧ Unwinds lay s r s') ↔
      s.phys.freelist.length = 0 ∨ 74 ≤ s.phys.freelist.length := by
  obtain ⟨p, hp, hrun⟩ := wp_allocproc lay hslot
  constructor
  · rintro ⟨r, s', hok, -⟩
    by_contra hk
    rw [not_or] at hk
    have hstops := wp_allocproc_found_stops hlay h (hidle p hp) (by omega) (by omega)
    exact (hrun _ _ hstops).of_ok hok
  · intro hk
    have hwp : wp (allocproc_found lay p) (fun r s' => Alloced lay F p s r s')
        (fun _ _ => False) s := by
      rcases hk with hk | hk
      · exact wp_allocproc_found_nil hlay h (hidle p hp) (length_eq_zero_iff.mp hk)
      · exact wp_allocproc_found hlay h (hidle p hp) hk
    obtain ⟨r, s', hok, ha⟩ := (hrun _ _ hwp).returns
    exact ⟨r, s', hok, ha.unwinds h hp⟩

/-! ### An empty process table and `n` free pages -/

def bareLayout (n : Nat) : Layout := ⟨KERNBASE + PGSIZE, KERNBASE, PHYSTOP - n * PGSIZE⟩

def bare (n : Nat) : State where
  phys :=
    { mem := fun _ => 0
      freelist := (List.range n).map fun i => PHYSTOP - (i + 1) * PGSIZE
      refcount := fun _ => 0 }
  proc := fun _ => ⟨.UNUSED, 0, none, 0, 0, 0, 0, 0, 0, []⟩
  nextpid := 1
  kernel_pagetable := 0
  pipe := fun _ => 0

theorem bareLayout_ok (hn : n ≤ 100) : (bareLayout n).Ok := by
  obtain ⟨hK, hP, -⟩ := kernAddr_eq
  have htext : (KERNBASE + PGSIZE) % PGSIZE = 0 ∧ KERNBASE < KERNBASE + PGSIZE := by decide
  refine ⟨htext.1, htext.2, ?_, Nat.sub_le .., le_rfl, htext.2⟩
  show KERNBASE + PGSIZE ≤ PHYSTOP - n * PGSIZE
  rw [PGSIZE_eq]
  omega

theorem bare_free {pg : Nat} (hn : n ≤ 100) :
    pg ∈ (bare n).phys.freelist ↔ isPage (bareLayout n) pg := by
  obtain ⟨hK, hP, -⟩ := kernAddr_eq
  show pg ∈ (range n).map (fun i => PHYSTOP - (i + 1) * PGSIZE) ↔
    pg % PGSIZE = 0 ∧ PHYSTOP - n * PGSIZE ≤ pg ∧ pg < PHYSTOP
  rw [mem_map, PGSIZE_eq]
  constructor
  · rintro ⟨i, hi, rfl⟩
    rw [mem_range] at hi
    omega
  · rintro ⟨h1, h2, h3⟩
    exact ⟨(PHYSTOP - pg) / 4096 - 1, mem_range.mpr (by omega), by omega⟩

theorem bare_forest (hn : n ≤ 100) :
    Forest (bareLayout n) sel (bare n).handles [] (bare n).phys := by
  have hroot : ∀ t, (bare n).handles.root t = none := by
    intro t
    cases t <;> rfl
  have hsingle : ∀ z, (bare n).handles.single z = none := by
    intro z
    cases z <;> rfl
  have hnone : ∀ o, Sum.elim (bare n).handles.root (bare n).handles.single o = none := by
    rintro (t | z)
    · exact hroot t
    · exact hsingle z
  have hused : ∀ pg, ¬ used (bareLayout n) (bare n).phys pg :=
    fun pg hc => hc.2 ((bare_free hn).mpr hc.1)
  refine Forest.of_zero (fun _ => rfl) ⟨?_, fun pg hpg => (bare_free hn).mp hpg, fun _ _ => rfl,
      fun pg hc =>
    absurd hc (hused pg)⟩ ⟨?_, ?_, nodup_nil, ?_⟩
  · refine List.Nodup.map_on (fun i hi j hj hij => ?_) nodup_range
    obtain ⟨hK, hP, -⟩ := kernAddr_eq
    rw [mem_range] at hi hj
    rw [PGSIZE_eq] at hij
    omega
  · intro o o' pg ho
    rw [hnone] at ho
    cases ho
  · intro o pg ho
    rw [hnone] at ho
    cases ho
  · intro pg
    refine ⟨fun hc => absurd hc (hused pg), ?_⟩
    rintro (hc | ⟨o, ho⟩)
    · cases hc
    · rw [hnone] at ho
      cases ho

theorem bare_length (n : Nat) : (bare n).phys.freelist.length = n := by
  simp [bare]

theorem bare_idle (n : Nat) (q : Fin NPROC) :
    ((bare n).proc q).state = .UNUSED ∧ Idle ((bare n).proc q) :=
  ⟨rfl, rfl, rfl, rfl, rfl⟩

/-- 80 pages are enough, 30 are not. -/
theorem allocproc_unwinds_iff_bare :
    (∃ r s', allocproc (bareLayout 80) (bare 80) = .ok r s' ∧
      Unwinds (bareLayout 80) (bare 80) r s') ∧
    ¬ ∃ r s', allocproc (bareLayout 30) (bare 30) = .ok r s' ∧
        Unwinds (bareLayout 30) (bare 30) r s' := by
  have hpos : 0 < NPROC := by decide
  have hiff : ∀ n, n ≤ 100 → ((∃ r s', allocproc (bareLayout n) (bare n) = .ok r s' ∧
      Unwinds (bareLayout n) (bare n) r s') ↔ n = 0 ∨ 74 ≤ n) := by
    intro n hn
    have h :=
      allocproc_unwinds_iff (bareLayout_ok hn) (bare_forest hn) (fun q _ => (bare_idle n q).2)
      ⟨⟨0, hpos⟩, (bare_idle n _).1⟩
    rwa [bare_length] at h
  exact ⟨(hiff 80 (by omega)).mpr (by omega), fun hc => absurd ((hiff 30 (by omega)).mp hc)
    (by omega)⟩

/-- With two free pages `allocproc` stops instead of returning 0. -/
theorem allocproc_two_pages_stops : ∃ e s', allocproc (bareLayout 2) (bare 2) = .error e s' := by
  have hpos : 0 < NPROC := by decide
  obtain ⟨p, -, hrun⟩ := wp_allocproc (s := bare 2) (bareLayout 2) ⟨⟨0, hpos⟩, rfl⟩
  have hstops :=
    wp_allocproc_found_stops (bareLayout_ok (n := 2) (by omega)) (bare_forest (by omega))
    (bare_idle 2 p).2 (by rw [bare_length]; omega) (by rw [bare_length]; omega)
  have hwp := hrun _ _ hstops
  cases hres : allocproc (bareLayout 2) (bare 2) with
  | ok r s' => exact (hwp.of_ok hres).elim
  | error e s' => exact ⟨e, s', rfl⟩

end Alloc

end NoviceKernel.ProcMem
