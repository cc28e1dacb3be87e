import NoviceKernel.Param
import NoviceKernel.Lib.TransitionSystem
import NoviceKernel.Lib.Count
import Mathlib.Logic.Function.Basic

/-! # Traps and alarms (`trap.c`, `trap_handler.c`, `syscallv2.c`)

    What the registers of a process go through between user mode and user mode:
    `uservec` saves them in the trapframe, a system call or the alarm handler
    changes the trapframe, `usertrapret` loads it back.

    1. **Model**: the trapframe, the alarm, the slots of the process table and
       the steps of any number of processes.
    2. **Alarms**: what `sigreturn` gives back to the program that was
       interrupted.
    3. **Isolation**: what a process can learn of the registers of the process
       that had its slot before.
    4. **Turning alarms off**: what `sigalarm(0, _)` does.  The alarm of a process
       is a machine of its own, and every run of the system is a run of it.

    A step is what one process does between two points at which others can run.
    The results of the system calls that do not touch the trapframe are arbitrary. -/

namespace NoviceKernel.Trap

open TransitionSystem Function Count Option

/-! ## 1. Model -/

/-- The 31 user registers, in the order of `struct trapframe`. -/
inductive Reg where
  | ra | sp | gp | tp | t0 | t1 | t2 | s0 | s1 | a0 | a1 | a2 | a3 | a4 | a5 | a6 | a7
  | s2 | s3 | s4 | s5 | s6 | s7 | s8 | s9 | s10 | s11 | t3 | t4 | t5 | t6
  deriving DecidableEq

abbrev Word := BitVec 64

/-- `struct trapframe`. -/
structure Trapframe where
  kernel_satp : Word
  kernel_sp : Word
  kernel_trap : Word
  epc : Word
  kernel_hartid : Word
  reg : Reg → Word

namespace Trapframe

/-- After `memset(&tf, 0, sizeof(tf))`. -/
def zero : Trapframe := ⟨0, 0, 0, 0, 0, fun _ => 0⟩

/-- A page from `kalloc`, filled with junk. -/
def junk : Trapframe :=
  let w : Word := 0x0505050505050505
  ⟨w, w, w, w, w, fun _ => w⟩

def setReg (t : Trapframe) (r : Reg) (v : Word) : Trapframe :=
  { t with reg := update t.reg r v }

end Trapframe

/-- `struct trapalarm`. -/
structure Trapalarm where
  interval : BitVec 32
  ticks : BitVec 32
  state : BitVec 32
  handler : Word
  trapframe_cp : Trapframe

/-- Program counter and registers of a process in user mode. -/
structure User where
  pc : Word
  reg : Reg → Word

/-- Where a process is. -/
inductive Phase where
  | UNUSED
  | user
  /-- In `syscall()`, called by `usertrap`. -/
  | syscall
  /-- On its way to `usertrapret`. -/
  | ret
  | ZOMBIE
  deriving DecidableEq

/-- The fields of `struct proc` that traps use, and the state of the program. -/
structure Proc (N : Nat) where
  phase : Phase
  killed : Bool
  pid : BitVec 32
  parent : Option (Fin N)
  trapframe : Trapframe
  trapalarm : Trapalarm
  /-- The registers of the program, which the CPU holds while it is in user mode. -/
  user : User
  /-- An alarm has been delivered since `allocproc`; no field of the source. -/
  alarmed : Bool

structure State (N : Nat) where
  proc : Fin N → Proc N
  nextpid : BitVec 32
  initproc : Fin N

/-- What a step is seen to do. -/
inductive Event (N : Nat) where
  | tau
  /-- A system call that returns. -/
  | call (p : Fin N) (num : Int)
  | exit (p : Fin N)
  /-- `alarm_handler` sends `p`, interrupted with trapframe `t`, to its handler. -/
  | redirect (p : Fin N) (t : Trapframe)
  /-- `usertrapret` resumes `p` in user mode. -/
  | resume (p : Fin N) (u : User)

/-- The words of the trapframe that are the kernel's own. -/
structure Kernel where
  satp : Word
  sp : Word
  trap : Word
  hartid : Word

/-- What a system call depends on besides the trapframe. -/
inductive Outcome (N : Nat) where
  /-- The slot that `allocproc` finds. -/
  | fork (q : Fin N)
  /-- `fork` fails: there is no slot, or memory runs out after one was found. -/
  | forkFails (q : Option (Fin N))
  /-- The child that `wait` frees; none if it returns -1. -/
  | wait (q : Option (Fin N))
  /-- Entry point, stack pointer and `argc` of the new image; none if `exec` fails. -/
  | exec (image : Option (Word × Word × Word))
  /-- The result of any other system call. -/
  | ret (r : Word)

inductive Action (N : Nat) where
  /-- User instructions, which leave any registers. -/
  | run (p : Fin N) (u : User)
  | ecall (p : Fin N)
  /-- An interrupt in user mode, of the timer or of another device. -/
  | intr (p : Fin N) (timer : Bool)
  /-- Any other exception; `handled` if `pagefault_handler` returns 0. -/
  | fault (p : Fin N) (handled : Bool)
  /-- The system call of `p`. -/
  | syscall (p : Fin N) (o : Outcome N)
  | usertrapret (p : Fin N) (k : Kernel)
  /-- Somebody's `kill` reaches slot `p`. -/
  | kill (p : Fin N)

def SYS_fork : Int := 1
def SYS_exit : Int := 2
def SYS_wait : Int := 3
def SYS_exec : Int := 7
def SYS_sigalarm : Int := 26
def SYS_sigreturn : Int := 27

/-- `NELEM(syscalls)`; all entries but the first are there. -/
def NSYSCALLS : Int := 28

/-- `int num = p->trapframe->a7`. -/
def Trapframe.num (t : Trapframe) : Int := ((t.reg .a7).setWidth 32).toInt

variable {N : Nat} {a : Action N} {u : User}

namespace Proc

variable (x : Proc N)

/-- `uservec` and the first lines of `usertrap`: registers and program counter
    go to the trapframe. -/
def save : Proc N :=
  { x with trapframe := { x.trapframe with epc := x.user.pc, reg := x.user.reg } }

/-- `p->trapframe->a0 = r`. -/
def setResult (r : Word) : Proc N :=
  { x with trapframe := x.trapframe.setReg .a0 r }

/-- `alarm_handler` finds that the alarm is due. -/
def alarmDue : Bool :=
  x.trapalarm.interval ≠ 0 ∧ x.trapalarm.state = 0 ∧ x.trapalarm.ticks + 1 = x.trapalarm.interval

def alarm_handler : Proc N :=
  if x.trapalarm.interval ≠ 0 then
    if x.trapalarm.state = 0 then
      if x.trapalarm.ticks + 1 = x.trapalarm.interval then
        { x with
          trapalarm := { x.trapalarm with ticks := 0, state := 1, trapframe_cp := x.trapframe }
          trapframe := { x.trapframe with epc := x.trapalarm.handler }
          alarmed := true }
      else { x with trapalarm := { x.trapalarm with ticks := x.trapalarm.ticks + 1 } }
    else x
  else x

def sys_sigalarm : Proc N :=
  let interval := (x.trapframe.reg .a0).setWidth 32
  let handler := x.trapframe.reg .a1
  if interval = 0 then x
  else { x with
    trapalarm := { x.trapalarm with interval := interval, handler := handler, ticks := 0 } }

def sys_sigreturn : Proc N :=
  { x with
    trapframe := x.trapalarm.trapframe_cp
    trapalarm := { x.trapalarm with trapframe_cp := .zero, state := 0 } }

/-- What `exec` writes to the trapframe when it succeeds. -/
def exec (entry sp : Word) : Proc N :=
  { x with trapframe := { (x.trapframe.setReg .a1 sp).setReg .sp sp with epc := entry } }

/-- The fields that `allocproc` sets, for the pid it was given.  The flag
    `killed` and the saved trapframe stay. -/
def allocproc (pid : BitVec 32) : Proc N :=
  { x with
    pid := pid
    trapframe := .junk
    trapalarm := { x.trapalarm with interval := 0, handler := 0, ticks := 0, state := 0 }
    -- the program has not run yet
    user := ⟨0, fun _ => 0⟩
    alarmed := false }

/-- The fields that `freeproc` clears. -/
def freeproc : Proc N :=
  { x with pid := 0, parent := none, killed := false, phase := .UNUSED }

/-- What `usertrapret` and `userret` do: the kernel's words are set up for the
    next trap, the registers come from the trapframe. -/
def usertrapret (k : Kernel) : Proc N :=
  { x with
    phase := .user
    trapframe := { x.trapframe with
      kernel_satp := k.satp, kernel_sp := k.sp, kernel_trap := k.trap, kernel_hartid := k.hartid }
    user := ⟨x.trapframe.epc, x.trapframe.reg⟩ }

end Proc

namespace State

def set (s : State N) (p : Fin N) (x : Proc N) : State N :=
  { s with proc := update s.proc p x }

/-- The children of `p` go to init. -/
def reparent (s : State N) (p : Fin N) : State N :=
  { s with proc := fun r =>
      if (s.proc r).parent = some p then { s.proc r with parent := some s.initproc } else s.proc r }

/-- `exit`; init panics. -/
def exit (s : State N) (p : Fin N) : Option (Event N × State N) :=
  if p = s.initproc then none
  else
    let s := s.reparent p
    some (.exit p, s.set p { s.proc p with phase := .ZOMBIE })

/-- `if (p->killed) exit(-1)`, with `x` the process so far, `y` what it does
    next. -/
def unlessKilled (s : State N) (p : Fin N) (x y : Proc N) (e : Event N) :
    Option (Event N × State N) :=
  if x.killed then (s.set p x).exit p else some (e, s.set p y)

/-- `sys_fork`, with the result in `a0`. -/
def fork (s : State N) (p : Fin N) : Outcome N → Option (State N)
  | .fork q =>
    if (s.proc q).phase = .UNUSED then
      let parent := s.proc p
      let np := { (s.proc q).allocproc s.nextpid with
        trapframe := parent.trapframe.setReg .a0 0, parent := some p, phase := .ret }
      some ({ s with nextpid := s.nextpid + 1 }.set q np |>.set p
        (parent.setResult (s.nextpid.signExtend 64)))
    else none
  | .forkFails none => some (s.set p ((s.proc p).setResult (-1)))
  | .forkFails (some q) =>
    if (s.proc q).phase = .UNUSED then
      some ({ s with nextpid := s.nextpid + 1 }.set q ((s.proc q).allocproc s.nextpid).freeproc
        |>.set p
        ((s.proc p).setResult (-1)))
    else none
  | _ => none

/-- `sys_wait`, with the result in `a0`. -/
def wait (s : State N) (p : Fin N) : Outcome N → Option (State N)
  | .wait none => some (s.set p ((s.proc p).setResult (-1)))
  | .wait (some q) =>
    let np := s.proc q
    if np.parent = some p ∧ np.phase = .ZOMBIE then
      some ((s.set q np.freeproc).set p ((s.proc p).setResult (np.pid.signExtend 64)))
    else none
  | _ => none

/-- `syscall()`: the system call of `p`, with its result in `a0`.  `exit` does
    not return and is not among them. -/
def syscall (s : State N) (p : Fin N) (o : Outcome N) : Option (State N) :=
  let x := s.proc p
  let num := x.trapframe.num
  if 0 < num ∧ num < NSYSCALLS then
    if num = SYS_fork then s.fork p o
    else if num = SYS_wait then s.wait p o
    else if num = SYS_exec then
      match o with
      | .exec none => some (s.set p (x.setResult (-1)))
      | .exec (some (entry, sp, argc)) => some (s.set p ((x.exec entry sp).setResult argc))
      | _ => none
    else if num = SYS_sigalarm then some (s.set p (x.sys_sigalarm.setResult 0))
    else if num = SYS_sigreturn then some (s.set p (x.sys_sigreturn.setResult 0))
    else
      match o with
      | .ret r => some (s.set p (x.setResult r))
      | _ => none
  else some (s.set p (x.setResult (-1)))

end State

/-- The steps of the system. -/
def exec : Action N → State N → Option (Event N × State N)
  | .run p u, s =>
    if (s.proc p).phase = .user then some (.tau, s.set p { s.proc p with user := u }) else none
  | .ecall p, s =>
    if (s.proc p).phase = .user then
      let x := (s.proc p).save
      s.unlessKilled p x
        { x with trapframe := { x.trapframe with epc := x.trapframe.epc + 4 }, phase := .syscall }
          .tau
    else none
  | .intr p timer, s =>
    if (s.proc p).phase = .user then
      let x := (s.proc p).save
      if timer then
        s.unlessKilled p x { x.alarm_handler with phase := .ret }
          (if x.alarmDue then .redirect p x.trapframe else .tau)
      else s.unlessKilled p x { x with phase := .ret } .tau
    else none
  | .fault p handled, s =>
    if (s.proc p).phase = .user then
      let x := { (s.proc p).save with killed := (s.proc p).killed || !handled }
      s.unlessKilled p x { x with phase := .ret } .tau
    else none
  | .syscall p o, s =>
    if (s.proc p).phase = .syscall then
      let num := (s.proc p).trapframe.num
      if num = SYS_exit then s.exit p
      else (s.syscall p o).bind fun s' =>
        s'.unlessKilled p (s'.proc p) { s'.proc p with phase := .ret } (.call p num)
    else none
  | .usertrapret p k, s =>
    if (s.proc p).phase = .ret then
      let x := (s.proc p).usertrapret k
      some (.resume p x.user, s.set p x)
    else none
  | .kill p, s => some (.tau, s.set p { s.proc p with killed := true })

/-- After `userinit`: one process, in slot 0, the rest of the table zero. -/
def init (hN : 0 < N) : State N where
  proc := fun p =>
    { phase := if p = ⟨0, hN⟩ then .ret else .UNUSED
      killed := false
      pid := if p = ⟨0, hN⟩ then 1 else 0
      parent := none
      trapframe := if p = ⟨0, hN⟩ then { Trapframe.junk.setReg .sp 4096 with epc := 0 } else .zero
      trapalarm := ⟨0, 0, 0, 0, .zero⟩
      user := ⟨0, fun _ => 0⟩
      alarmed := false }
  nextpid := 2
  initproc := ⟨0, hN⟩

def Initial (s : State N) : Prop := ∃ hN, s = init hN

def system (N : Nat) : System (State N) (Event N) := ofExec Initial exec

section Steps

variable {s s' : State N} {p q : Fin N} {x y : Proc N} {t : Trapframe} {e : Event N} {o : Outcome N}
  {r : Word}

open State

@[simp] theorem State.set_self : (s.set p x).proc p = x := by simp [State.set]

@[simp] theorem State.set_ne (h : q ≠ p) : (s.set p x).proc q = s.proc q := by simp [State.set, h]

/-! ### What a step does to the other processes -/

/-- The process whose step it is. -/
def Action.actor : Action N → Fin N
  | .run p _ | .ecall p | .intr p _ | .fault p _ | .syscall p _ | .usertrapret p _ | .kill p => p

/-- A process that exists and has not exited. -/
def Proc.Live (x : Proc N) : Prop := x.phase ≠ .UNUSED ∧ x.phase ≠ .ZOMBIE

/-- Only `parent` has changed. -/
def Same (x y : Proc N) : Prop := y = { x with parent := y.parent }

theorem Same.refl (x : Proc N) : Same x x := rfl

/-- A step of `p` leaves the other live processes alone, but for their parents. -/
def Frame (p : Fin N) (s s' : State N) : Prop :=
  ∀ q, q ≠ p → (s.proc q).Live → Same (s.proc q) (s'.proc q)

theorem Frame.set : Frame p s (s.set p x) := by
  intro q hq _
  rw [set_ne hq]
  exact .refl _

/-- `exit` gives the children of `p` to init. -/
theorem exit_cases (h : s.exit p = some (e, s')) :
    Frame p s s' ∧ e = .exit p ∧ (s'.proc p).phase = .ZOMBIE := by
  unfold exit at h
  obtain ⟨-, h⟩ := ite_none_left_eq_some.mp h
  cases h
  refine ⟨?_, rfl, by rw [set_self]⟩
  intro q hq _
  rw [set_ne hq]
  unfold reparent
  dsimp only
  split <;> rfl

theorem unlessKilled_cases {e₀ : Event N} (h : s.unlessKilled p x y e₀ = some (e, s')) :
    Frame p s s' ∧ ((e = .exit p ∧ (s'.proc p).phase = .ZOMBIE) ∨ (e = e₀ ∧ s'.proc p = y)) := by
  unfold unlessKilled at h
  split at h
  · obtain ⟨hframe, hexit⟩ := exit_cases h
    refine ⟨?_, .inl hexit⟩
    intro q hq
    have := hframe q hq
    rwa [set_ne hq] at this
  · cases h
    exact ⟨.set, .inr ⟨rfl, set_self⟩⟩

/-- `p` gets the result of a system call; the other live processes stay as they were. -/
structure Returns (p : Fin N) (s s' : State N) : Prop where
  self : ∃ r, s'.proc p = (s.proc p).setResult r
  frame : ∀ q, q ≠ p → (s.proc q).Live → s'.proc q = s.proc q

theorem Returns.set : Returns p s (s.set p ((s.proc p).setResult r)) :=
  ⟨⟨r, set_self⟩, fun _ hq _ => set_ne hq⟩

/-- A slot that is free or a ZOMBIE is filled or freed. -/
theorem Returns.slot {n : BitVec 32} (hq : ¬ (s.proc q).Live) :
    Returns p s ((State.set { s with nextpid := n } q x).set p ((s.proc p).setResult r)) := by
  refine ⟨⟨r, set_self⟩, fun q' hp hlive => ?_⟩
  have hne : q' ≠ q := by
    intro heq
    exact hq (heq ▸ hlive)
  rw [set_ne hp, set_ne hne]

/-- A new process gets a free slot. -/
theorem fork_returns (h : s.fork p o = some s') : Returns p s s' := by
  unfold fork at h
  split at h
  · obtain ⟨hq, h⟩ := ite_none_right_eq_some.mp h
    cases h
    exact .slot fun hlive => hlive.1 hq
  · cases h
    exact .set
  · obtain ⟨hq, h⟩ := ite_none_right_eq_some.mp h
    cases h
    exact .slot fun hlive => hlive.1 hq
  · cases h

/-- `wait` frees the slot of a ZOMBIE. -/
theorem wait_returns (h : s.wait p o = some s') : Returns p s s' := by
  unfold wait at h
  split at h
  · cases h
    exact .set
  · obtain ⟨hq, h⟩ := ite_none_right_eq_some.mp h
    cases h
    exact .slot (n := s.nextpid) fun hlive => hlive.2 hq.2
  · cases h

/-- The system calls that change nothing but the caller, `sigreturn` apart. -/
inductive Proc.Local (x : Proc N) : Proc N → Prop where
  | same : Local x x
  | exec (entry sp : Word) : Local x (x.exec entry sp)
  | sigalarm : x.trapframe.num = SYS_sigalarm → Local x x.sys_sigalarm

/-- What a system call does. -/
structure Called (p : Fin N) (s s' : State N) : Prop where
  frame : ∀ q, q ≠ p → (s.proc q).Live → s'.proc q = s.proc q
  self : ((s.proc p).trapframe.num = SYS_sigreturn ∧
    s'.proc p = (s.proc p).sys_sigreturn.setResult 0) ∨
    ((s.proc p).trapframe.num ≠ SYS_sigreturn ∧ ∃ y r, (s.proc p).Local y ∧
      s'.proc p = y.setResult r)

theorem Called.local (hnum : (s.proc p).trapframe.num ≠ SYS_sigreturn) (hy : (s.proc p).Local y) :
    Called p s (s.set p (y.setResult r)) :=
  ⟨fun _ hq _ => set_ne hq, .inr ⟨hnum, y, r, hy, set_self⟩⟩

theorem Returns.called (h : Returns p s s') (hnum : (s.proc p).trapframe.num ≠ SYS_sigreturn) :
    Called p s s' := by
  obtain ⟨r, hr⟩ := h.self
  exact ⟨h.frame, .inr ⟨hnum, _, r, .same, hr⟩⟩

theorem syscall_cases (h : s.syscall p o = some s') : Called p s s' := by
  unfold syscall at h
  dsimp only at h
  split at h
  · split at h
    · next hnum => exact (fork_returns h).called (by rw [hnum]; decide)
    · split at h
      · next hnum => exact (wait_returns h).called (by rw [hnum]; decide)
      · split at h
        · next hnum =>
          have hne : (s.proc p).trapframe.num ≠ SYS_sigreturn := by rw [hnum]; decide
          split at h
          · cases h
            exact .local hne .same
          · cases h
            exact .local hne (.exec _ _)
          · cases h
        · split at h
          · next hnum =>
            cases h
            exact .local (by rw [hnum]; decide) (.sigalarm hnum)
          · split at h
            · next hnum =>
              cases h
              exact ⟨fun _ hq _ => set_ne hq, .inl ⟨hnum, set_self⟩⟩
            · next hne =>
              split at h
              · cases h
                exact .local hne .same
              · cases h
  · next hrange =>
    cases h
    refine .local (fun hnum => hrange ?_) .same
    rw [hnum]
    decide

/-! ### What a step does to the process itself -/

/-- The steps of process `p`: the process before, the label, the process after. -/
inductive Proc.Step (p : Fin N) (x : Proc N) : Event N → Proc N → Prop where
  | run (u : User) : x.phase = .user → Step p x .tau { x with user := u }
  | ecall : x.phase = .user → Step p x .tau
      { x.save with
        trapframe := { x.save.trapframe with epc := x.save.trapframe.epc + 4 }, phase := .syscall }
  | timer : x.phase = .user → Step p x
      (if x.save.alarmDue then .redirect p x.save.trapframe else .tau)
      { x.save.alarm_handler with phase := .ret }
  | device (k : Bool) : x.phase = .user → Step p x .tau { x.save with phase := .ret, killed := k }
  | call (y : Proc N) (r : Word) : x.phase = .syscall → x.trapframe.num ≠ SYS_sigreturn →
      x.Local y → Step p x (.call p x.trapframe.num) { y.setResult r with phase := .ret }
  | sigreturn : x.phase = .syscall → x.trapframe.num = SYS_sigreturn →
      Step p x (.call p SYS_sigreturn) { x.sys_sigreturn.setResult 0 with phase := .ret }
  | usertrapret (k : Kernel) : x.phase = .ret →
      Step p x (.resume p (x.usertrapret k).user) (x.usertrapret k)
  | kill : Step p x .tau { x with killed := true }
  | exit (y : Proc N) : x.phase = .user ∨ x.phase = .syscall → y.phase = .ZOMBIE →
      Step p x (.exit p) y

open Proc

/-- The caller is still in its system call. -/
theorem syscall_phase (h : s.syscall p o = some s') : (s'.proc p).phase = (s.proc p).phase := by
  rcases (syscall_cases h).self with ⟨-, hs⟩ | ⟨-, y, r, hy, hs⟩
  · rw [hs]; rfl
  · rw [hs]
    cases hy with
    | same => rfl
    | exec entry sp => rfl
    | sigalarm =>
      change (s.proc p).sys_sigalarm.phase = _
      unfold sys_sigalarm
      dsimp only
      split <;> rfl

theorem alarm_handler_phase : x.alarm_handler.phase = x.phase := by
  unfold alarm_handler
  repeat' split
  all_goals rfl

/-- **Steps**: the process does one of its own, the others are left alone. -/
theorem exec_cases (h : exec a s = some (e, s')) :
    Frame a.actor s s' ∧ (s.proc a.actor).Step a.actor e (s'.proc a.actor) := by
  have hkilled : ∀ {p x y e₀}, (s.proc p).phase = .user → (s.proc p).Step p e₀ y →
      s.unlessKilled p x y e₀ = some (e, s') → Frame p s s' ∧ (s.proc p).Step p e (s'.proc p) := by
    intro p x y e₀ hp hstep h
    obtain ⟨hframe, ⟨rfl, hz⟩ | ⟨rfl, hs⟩⟩ := unlessKilled_cases h
    · exact ⟨hframe, .exit _ (.inl hp) hz⟩
    · rw [hs]
      exact ⟨hframe, hstep⟩
  cases a with
  | run q u =>
    obtain ⟨hp, h⟩ := ite_none_right_eq_some.mp h
    cases h
    rw [Action.actor, set_self]
    exact ⟨.set, .run u hp⟩
  | ecall q =>
    obtain ⟨hp, h⟩ := ite_none_right_eq_some.mp h
    exact hkilled hp (.ecall hp) h
  | intr q timer =>
    obtain ⟨hp, h⟩ := ite_none_right_eq_some.mp h
    dsimp only at h
    split at h
    · exact hkilled hp (.timer hp) h
    · exact hkilled hp (.device _ hp) h
  | fault q handled =>
    obtain ⟨hp, h⟩ := ite_none_right_eq_some.mp h
    exact hkilled hp (.device _ hp) h
  | syscall q o =>
    obtain ⟨hp, h⟩ := ite_none_right_eq_some.mp h
    dsimp only at h
    split at h
    · obtain ⟨hframe, rfl, hz⟩ := exit_cases h
      exact ⟨hframe, .exit _ (.inr hp) hz⟩
    · obtain ⟨s1, hcall, hrest⟩ := bind_eq_some_iff.mp h
      obtain ⟨hframe, hself⟩ := syscall_cases hcall
      obtain ⟨hframe', hself'⟩ := unlessKilled_cases hrest
      constructor
      · intro p hne hlive
        have := hframe' p hne
        rw [hframe p hne hlive] at this
        exact this hlive
      · rcases hself' with ⟨rfl, hz⟩ | ⟨rfl, hs⟩
        · exact .exit _ (.inr hp) hz
        · rw [Action.actor, hs]
          rcases hself with ⟨hnum, hs1⟩ | ⟨hnum, y, r, hy, hs1⟩
          · rw [hs1, hnum]
            exact .sigreturn hp hnum
          · rw [hs1]
            exact .call y r hp hnum hy
  | usertrapret q k =>
    obtain ⟨hp, h⟩ := ite_none_right_eq_some.mp h
    cases h
    rw [Action.actor, set_self]
    exact ⟨.set, .usertrapret k hp⟩
  | kill q =>
    cases h
    rw [Action.actor, set_self]
    exact ⟨.set, .kill⟩

/-! ## 2. Alarms -/

/-- The handler of `x` runs; the trapframe of the interrupted program is kept. -/
structure Handling (t : Trapframe) (x : Proc N) : Prop where
  live : x.Live
  state : x.trapalarm.state = 1
  saved : x.trapalarm.trapframe_cp = t

/-- `x` is about to return to user mode with trapframe `t`. -/
structure Returning (t : Trapframe) (x : Proc N) : Prop where
  phase : x.phase = .ret
  trapframe : x.trapframe = t

theorem Handling.same (h : Handling t x) (hy : Same x y) : Handling t y := by
  rw [hy]
  exact ⟨h.live, h.state, h.saved⟩

theorem Handling.local (h : Handling t x) (hy : x.Local y) : Handling t y := by
  cases hy with
  | same => exact h
  | exec entry sp => exact ⟨h.live, h.state, h.saved⟩
  | sigalarm =>
    unfold sys_sigalarm
    dsimp only
    split
    · exact h
    · exact ⟨h.live, h.state, h.saved⟩

/-- A step of the process itself: no second alarm is delivered while the handler
    runs, and only `sigreturn` touches the saved trapframe. -/
theorem Handling.self (h : Handling t x) (hstep : x.Step p e y) (hexit : e ≠ .exit p)
    (hsig : e ≠ .call p SYS_sigreturn) : Handling t y := by
  cases hstep with
  | run | kill => exact { h with }
  | ecall | device | usertrapret => exact { h with live := ⟨nofun, nofun⟩ }
  | timer _ =>
    have hs : x.save.alarm_handler = x.save := by
      unfold alarm_handler
      have hstate : x.save.trapalarm.state = 1 := h.state
      simp [hstate]
    rw [hs]
    exact { h with live := ⟨nofun, nofun⟩ }
  | call y r _ _ hy =>
    exact { h.local hy with live := ⟨nofun, nofun⟩ }
  | sigreturn _ _ => exact absurd rfl hsig
  | exit _ _ => exact absurd rfl hexit

theorem Handling.step (h : Handling t (s.proc p)) (hex : exec a s = some (e, s'))
    (hexit : e ≠ .exit p) (hsig : e ≠ .call p SYS_sigreturn) : Handling t (s'.proc p) := by
  obtain ⟨hframe, hstep⟩ := exec_cases hex
  by_cases hp : p = a.actor
  · subst hp
    exact h.self hstep hexit hsig
  · exact h.same (hframe p hp h.live)

/-- The alarm is delivered: the handler runs, with the trapframe kept. -/
theorem Proc.Step.redirect (h : x.Step q (.redirect p t) y) : q = p ∧ Handling t y := by
  generalize he : Event.redirect p t = l at h
  cases h with
  | timer _ =>
    split at he
    · next hdue =>
      injection he with hpq ht
      refine ⟨hpq.symm, ?_⟩
      have hdue : x.save.trapalarm.interval ≠ 0 ∧ x.save.trapalarm.state = 0 ∧
          x.save.trapalarm.ticks + 1 = x.save.trapalarm.interval := of_decide_eq_true hdue
      unfold alarm_handler
      rw [if_pos hdue.1, if_pos hdue.2.1, if_pos hdue.2.2]
      exact ⟨⟨nofun, nofun⟩, rfl, ht.symm⟩
    · cases he
  | _ => cases he

/-- `sigreturn` brings the saved trapframe back, and `syscall()` writes its
    result over `a0`. -/
theorem Proc.Step.sigreturned (h : x.Step q (.call p SYS_sigreturn) y) :
    q = p ∧ Returning (x.trapalarm.trapframe_cp.setReg .a0 0) y := by
  generalize he : Event.call p SYS_sigreturn = l at h
  cases h with
  | timer _ => split at he <;> cases he
  | call y r _ hnum _ =>
    injection he with _ hn
    exact absurd hn.symm hnum
  | sigreturn _ _ =>
    injection he with hpq
    exact ⟨hpq.symm, rfl, rfl⟩
  | _ => cases he

/-- `usertrapret` loads the trapframe. -/
theorem Proc.Step.resumed (h : x.Step q (.resume p u) y) :
    q = p ∧ u = ⟨x.trapframe.epc, x.trapframe.reg⟩ := by
  generalize he : Event.resume p u = l at h
  cases h with
  | timer _ => split at he <;> cases he
  | usertrapret k _ =>
    injection he with hpq hu
    exact ⟨hpq.symm, hu⟩
  | _ => cases he

/-- On the way to `usertrapret` nothing happens to the trapframe. -/
theorem Returning.step (h : Returning t (s.proc p)) (hex : exec a s = some (e, s'))
    (hres : ∀ u, e ≠ .resume p u) : Returning t (s'.proc p) := by
  obtain ⟨hframe, hstep⟩ := exec_cases hex
  by_cases hp : p = a.actor
  · rw [← hp] at hstep
    generalize s'.proc p = y at hstep
    have hphase := h.phase
    cases hstep with
    | usertrapret k _ => exact absurd rfl (hres _)
    | kill => exact ⟨h.phase, h.trapframe⟩
    | exit _ hp _ =>
      rw [hphase] at hp
      rcases hp with hp | hp <;> cases hp
    | run _ hp | ecall hp | timer hp | device _ hp | call _ _ hp _ _ | sigreturn hp _ =>
      rw [hphase] at hp
      cases hp
  · have hsame := hframe p hp ⟨by rw [h.phase]; nofun, by rw [h.phase]; nofun⟩
    rw [hsame]
    exact { h with }

end Steps

/-- In state `s₀` an alarm interrupts `p` with trapframe `t`.  The handler runs
    any instructions and system calls, while the other processes go on, until it
    calls `sigreturn`; then `usertrapret` resumes the program with `u`. -/
inductive AlarmRun (s₀ : State N) (p : Fin N) (t : Trapframe) (u : User) : Prop where
  | mk {s₁ s₂ s₃ s₄ s₅ : State N} {handler rest : List (Event N)}
      (redirect : (system N).step s₀ (.redirect p t) s₁) (run : Path (system N) s₁ handler s₂)
      (inside : ∀ l ∈ handler, l ≠ .exit p ∧ l ≠ .call p SYS_sigreturn)
      (sigreturn : (system N).step s₂ (.call p SYS_sigreturn) s₃)
      (back : Path (system N) s₃ rest s₄) (kernel : ∀ l ∈ rest, ∀ u, l ≠ .resume p u)
      (resume : (system N).step s₄ (.resume p u) s₅)

/-- The program is resumed with all that was in force at the interrupt, but 0
    in `a0`. -/
theorem AlarmRun.resumes {s : State N} {p : Fin N} {t : Trapframe}
    (h : AlarmRun s p t u) : u = ⟨t.epc, update t.reg .a0 0⟩ := by
  obtain @⟨s1, s2, s3, s4, s5, handler, rest, hredirect, hrun, hin, hsigreturn, hback, hout,
    hresume⟩ := h
  have h1 : Handling t (s1.proc p) := by
    obtain ⟨a, hex⟩ := hredirect
    obtain ⟨hact, hh⟩ := (exec_cases hex).2.redirect
    rwa [hact] at hh
  have h2 : Handling t (s2.proc p) := by
    refine hrun.invariant (I := fun s => Handling t (s.proc p)) hin h1 ?_
    intro s l s' hI hl hs
    obtain ⟨a, hex⟩ := hs
    exact hI.step hex hl.1 hl.2
  have h3 : Returning (t.setReg .a0 0) (s3.proc p) := by
    obtain ⟨a, hex⟩ := hsigreturn
    obtain ⟨hact, hr⟩ := (exec_cases hex).2.sigreturned
    rwa [hact, h2.saved] at hr
  have h4 : Returning (t.setReg .a0 0) (s4.proc p) := by
    refine hback.invariant (I := fun s => Returning (t.setReg .a0 0) (s.proc p)) hout h3 ?_
    intro s l s' hI hl hs
    obtain ⟨a, hex⟩ := hs
    exact hI.step hex hl
  obtain ⟨a, hex⟩ := hresume
  obtain ⟨hact, hu⟩ := (exec_cases hex).2.resumed
  rw [hu, hact, h4.trapframe]
  rfl

/-- **Alarms are transparent** but for `a0`: the program that an alarm has
    interrupted is resumed with the program counter and all 31 registers it had if
    and only if `a0` was 0. -/
theorem alarm_transparent {s : State N} {p : Fin N} {t : Trapframe} {u : User}
    (h : AlarmRun s p t u) : (u.pc = t.epc ∧ ∀ r, u.reg r = t.reg r) ↔ t.reg .a0 = 0 := by
  have hu := h.resumes
  subst hu
  constructor
  · intro h
    have ha : update t.reg .a0 0 .a0 = t.reg .a0 := h.2 .a0
    rw [Function.update_self] at ha
    exact ha.symm
  · intro ha
    refine ⟨rfl, fun r => ?_⟩
    rw [← ha, Function.update_eq_self]

/-- The first process. -/
def initcode : Fin 1 := ⟨0, Nat.one_pos⟩

/-- Registers with a system call number and its first two arguments. -/
def callRegs (num arg0 arg1 : Word) : Reg → Word
  | .a7 => num
  | .a0 => arg0
  | .a1 => arg1
  | _ => 0

/-- `sigalarm(1, 64)`, instructions that leave `v` in `a0`, the timer, and a
    handler that calls `sigreturn` at once. -/
def alarmAt (v : Word) : List (Action 1) :=
  [.usertrapret initcode ⟨0, 0, 0, 0⟩, .run initcode ⟨0, callRegs 26 1 64⟩, .ecall initcode,
    .syscall initcode (.ret 0), .usertrapret initcode ⟨0, 0, 0, 0⟩,
      .run initcode ⟨32, callRegs 0 v 0⟩,
    .intr initcode true,
    .usertrapret initcode ⟨0, 0, 0, 0⟩, .run initcode ⟨64, callRegs 27 0 0⟩, .ecall initcode,
    .syscall initcode (.ret 0), .usertrapret initcode ⟨0, 0, 0, 0⟩]

/-- The labels of such a run. -/
def isAlarmAt (v : Word) : List (Event 1) → Bool
  | [_, _, _, _, _, _, .redirect _ t, .resume _ _, .tau, .tau, .call _ 27, .resume _ u] =>
    t.reg .a0 = v ∧ u.reg .a0 = 0
  | _ => false

theorem alarmRun_of_test {v : Word}
    (h : (replay exec (alarmAt v) (init Nat.one_pos)).any (fun r => isAlarmAt v r.1) = true) :
    ∃ s t u, Reachable (system 1) s ∧ AlarmRun s initcode t u ∧ t.reg .a0 = v ∧ u.reg .a0 = 0 := by
  have hinit : Initial (init Nat.one_pos) := ⟨_, rfl⟩
  obtain ⟨tr, s, htr, ht⟩ :=
    exists_trace_of_replay exec (alarmAt v) (fun tr _ => isAlarmAt v tr) hinit h
  unfold isAlarmAt at ht
  split at ht
  · next l1 l2 l3 l4 l5 l6 p t q u0 r w u =>
    obtain rfl : initcode = p := Subsingleton.elim _ _
    obtain rfl : initcode = q := Subsingleton.elim _ _
    obtain rfl : initcode = r := Subsingleton.elim _ _
    obtain rfl : initcode = w := Subsingleton.elim _ _
    obtain ⟨hv, hu⟩ := of_decide_eq_true ht
    have htr : Trace (system 1) ([l1, l2, l3, l4, l5, l6] ++ (.redirect initcode t ::
        ([.resume initcode u0, .tau, .tau] ++ [.call initcode 27, .resume initcode u]))) s := htr
    -- cut the run at the interrupt, after the handler, and after `sigreturn`
    obtain ⟨s0, h0, hp⟩ := htr.split
    obtain ⟨s1, hredirect, hp⟩ := hp.head
    obtain ⟨s2, hrun, hp⟩ := hp.split
    obtain ⟨s3, hsig, hp⟩ := hp.head
    obtain ⟨s4, hres, -⟩ := hp.head
    refine ⟨s0, t, u, ⟨_, h0⟩, .mk hredirect hrun ?_ hsig (.init rfl) ?_ hres, hv, hu⟩
    · intro l hl
      simp only [List.mem_cons, List.not_mem_nil, or_false] at hl
      rcases hl with rfl | rfl | rfl <;> exact ⟨nofun, nofun⟩
    · intro l hl
      cases hl
  · cases ht

/-- `a0` was 0: the program goes on as it was. -/
theorem alarm_transparent_zero :
    ∃ (s : State 1) (t : Trapframe) (u : User), Reachable (system 1) s ∧ AlarmRun s initcode t u ∧
      u.pc = t.epc ∧ ∀ r, u.reg r = t.reg r := by
  obtain ⟨s, t, u, hs, hrun, hv, -⟩ := alarmRun_of_test (v := 0) (by decide +kernel)
  exact ⟨s, t, u, hs, hrun, (alarm_transparent hrun).mpr hv⟩

/-- `a0` was 7: the program goes on with 0 in it. -/
theorem alarm_transparent_fail :
    ∃ (s : State 1) (t : Trapframe) (u : User), Reachable (system 1) s ∧ AlarmRun s initcode t u ∧
      t.reg .a0 = 7 ∧ u.reg .a0 = 0 := by
  exact alarmRun_of_test (by decide +kernel)

/-! ## 3. Isolation -/

/-- The process with another saved trapframe. -/
def Proc.withSaved (x : Proc N) (c : Trapframe) : Proc N :=
  { x with trapalarm := { x.trapalarm with trapframe_cp := c } }

/-- Two processes in one slot that nobody can tell apart: both slots are free,
    or the saved trapframes differ and no alarm has been delivered yet. -/
inductive Proc.Agree (x : Proc N) : Proc N → Prop where
  | free (y : Proc N) : x.phase = .UNUSED → y.phase = .UNUSED → y.killed = x.killed →
    y.pid = x.pid →
      y.parent = x.parent → Agree x y
  | live (c : Trapframe) : x.phase ≠ .UNUSED →
      (x.alarmed = true → c = x.trapalarm.trapframe_cp) → Agree x (x.withSaved c)

structure State.Agree (s t : State N) : Prop where
  nextpid : t.nextpid = s.nextpid
  initproc : t.initproc = s.initproc
  proc : ∀ p, (s.proc p).Agree (t.proc p)

/-- Two outcomes of a step: the same label, states that agree. -/
abbrev Alike : Option (Event N × State N) → Option (Event N × State N) → Prop :=
  Option.Rel fun r r' => r'.1 = r.1 ∧ r.2.Agree r'.2

section Agree

variable {s t : State N} {p q : Fin N} {x y x' y' : Proc N} {e : Event N} {o : Outcome N}

namespace Proc.Agree

section

variable (h : x.Agree y)
include h

theorem phase : y.phase = x.phase := by
  cases h with
  | free y hx hy _ _ _ => rw [hx, hy]
  | live c _ _ => rfl

theorem killed : y.killed = x.killed := by
  cases h with
  | free y _ _ hk _ _ => exact hk
  | live c _ _ => rfl

theorem pid : y.pid = x.pid := by
  cases h with
  | free y _ _ _ hp _ => exact hp
  | live c _ _ => rfl

theorem parent : y.parent = x.parent := by
  cases h with
  | free y _ _ _ _ hp => exact hp
  | live c _ _ => rfl

omit h in
theorem refl (x : Proc N) : x.Agree x := by
  by_cases hx : x.phase = .UNUSED
  · exact .free x hx hx rfl rfl rfl
  · exact .live x.trapalarm.trapframe_cp hx fun _ => rfl

/-- What is left to differ in a process that exists. -/
theorem elim (hx : x.phase ≠ .UNUSED) :
    ∃ c, y = x.withSaved c ∧ (x.alarmed = true → c = x.trapalarm.trapframe_cp) := by
  cases h with
  | free y hx' _ _ _ _ => exact absurd hx' hx
  | live c _ hc => exact ⟨c, rfl, hc⟩

theorem setParent (r : Option (Fin N)) : Agree { x with parent := r } { y with parent := r } := by
  cases h with
  | free y hx hy hk hp _ => exact .free _ hx hy hk hp rfl
  | live c hx hc => exact .live (x := { x with parent := r }) c hx hc

theorem kill : Agree { x with killed := true } { y with killed := true } := by
  cases h with
  | free y hx hy _ hp hr => exact .free _ hx hy rfl hp hr
  | live c hx hc => exact .live (x := { x with killed := true }) c hx hc

omit h in
theorem freeproc (x y : Proc N) : x.freeproc.Agree y.freeproc :=
  .free _ rfl rfl rfl rfl rfl

/-- What a free slot is taken over with, but for the saved trapframe, does not
    depend on who had it. -/
theorem allocated (pid : BitVec 32) (t : Trapframe) (r : Option (Fin N)) :
    Agree { x.allocproc pid with trapframe := t, parent := r, phase := .ret }
      { y.allocproc pid with trapframe := t, parent := r, phase := .ret } := by
  have hy : ({ y.allocproc pid with trapframe := t, parent := r, phase := .ret } : Proc N) =
      ({ x.allocproc pid with trapframe := t, parent := r, phase := .ret } : Proc N).withSaved
        y.trapalarm.trapframe_cp := by
    unfold allocproc withSaved
    simp only [h.killed]
  rw [hy]
  exact .live _ nofun nofun

end

section

variable (h : x.Agree y) (hx : x.phase ≠ .UNUSED)
include h hx

/-- A change that neither reads nor writes the saved trapframe. -/
theorem map (f : Proc N → Proc N) (hf : ∀ c, f (x.withSaved c) = (f x).withSaved c)
    (hphase : (f x).phase ≠ .UNUSED) (halarmed : (f x).alarmed = x.alarmed)
    (hsaved : (f x).trapalarm.trapframe_cp = x.trapalarm.trapframe_cp) : (f x).Agree (f y) := by
  obtain ⟨c, rfl, hc⟩ := h.elim hx
  rw [hf c]
  refine .live c hphase ?_
  rw [halarmed, hsaved]
  exact hc

/-- The alarm handler writes the saved trapframe when it delivers the alarm, and
    leaves it alone otherwise. -/
theorem alarm_handler : x.alarm_handler.Agree y.alarm_handler := by
  obtain ⟨c, rfl, hc⟩ := h.elim hx
  unfold alarm_handler
  change Agree _ (if x.trapalarm.interval ≠ 0 then if x.trapalarm.state = 0 then
    if x.trapalarm.ticks + 1 = x.trapalarm.interval then _ else _ else _ else _)
  split
  · split
    · split
      · exact .refl _
      · exact .live
          (x := { x with trapalarm := { x.trapalarm with ticks := x.trapalarm.ticks + 1 } }) c hx hc
    · exact h
  · exact h

theorem sys_sigalarm : x.sys_sigalarm.Agree y.sys_sigalarm := by
  obtain ⟨c, rfl, hc⟩ := h.elim hx
  unfold sys_sigalarm
  change Agree (if (x.trapframe.reg .a0).setWidth 32 = 0 then _ else _)
    (if (x.trapframe.reg .a0).setWidth 32 = 0 then _ else _)
  split
  · exact h
  · exact .live (x := { x with trapalarm := { x.trapalarm with
      interval := (x.trapframe.reg .a0).setWidth 32, handler := x.trapframe.reg .a1, ticks :=
      0 } }) c hx hc

/-- On the way to `usertrapret`. -/
theorem ret : Agree { x with phase := .ret } { y with phase := .ret } :=
  h.map hx (fun x => { x with phase := .ret }) (fun _ => rfl) nofun rfl rfl

theorem setResult (r : Word) : (x.setResult r).Agree (y.setResult r) :=
  h.map hx (Proc.setResult · r) (fun _ => rfl) hx rfl rfl

end

end Proc.Agree

section

variable {f : Phase} {a b : Option (Event N × State N)} (h : s.Agree t)
include h

theorem State.Agree.set (hx : x.Agree y) : (s.set p x).Agree (t.set p y) :=
  { h with proc := fun q => update_both (motive := fun _ => Proc.Agree) q hx fun q _ => h.proc q }

theorem State.Agree.reparent : (s.reparent p).Agree (t.reparent p) := by
  refine { h with proc := fun q => ?_ }
  unfold State.reparent
  dsimp only
  rw [(h.proc q).parent, h.initproc]
  split
  · exact (h.proc q).setParent _
  · exact h.proc q

theorem State.Agree.exit (hp : (s.proc p).phase ≠ .UNUSED) : Alike (s.exit p) (t.exit p) := by
  unfold State.exit
  rw [h.initproc]
  split
  · exact .none
  · refine .some ⟨rfl, h.reparent.set ?_⟩
    have hphase : ((s.reparent p).proc p).phase ≠ .UNUSED := by
      unfold State.reparent
      dsimp only
      split <;> exact hp
    obtain ⟨c, hc, hcs⟩ := (h.reparent.proc p).elim hphase
    rw [hc]
    exact .live (x := { (s.reparent p).proc p with phase := .ZOMBIE }) c nofun hcs

theorem State.Agree.unlessKilled (hx : x.Agree x') (hy : y.Agree y') (hphase : x.phase ≠ .UNUSED) :
    Alike (s.unlessKilled p x y e) (t.unlessKilled p x' y' e) := by
  unfold State.unlessKilled
  rw [hx.killed]
  split
  · apply (h.set hx).exit
    rw [State.set_self]
    exact hphase
  · exact .some ⟨rfl, h.set hy⟩

section

variable (hlive : (s.proc p).phase ≠ .UNUSED)
include hlive

/-- `fork` gives the child of two agreeing parents the same registers. -/
theorem State.Agree.fork : Option.Rel State.Agree (s.fork p o) (t.fork p o) := by
  obtain ⟨c, hc, -⟩ := (h.proc p).elim hlive
  have htf : (t.proc p).trapframe = (s.proc p).trapframe := by rw [hc]; rfl
  have hself := (h.proc p).setResult hlive
  have hnext : State.Agree { s with nextpid := s.nextpid + 1 }
    { t with nextpid := t.nextpid + 1 } :=
    { h with nextpid := by rw [h.nextpid] }
  cases o with
  | fork q =>
    unfold fork
    dsimp only
    rw [(h.proc q).phase, htf, h.nextpid]
    split
    · refine .some ?_
      rw [h.nextpid] at hnext
      refine (hnext.set ?_).set (hself _)
      exact .allocated (h.proc q) _ _ _
    · exact .none
  | forkFails q =>
    cases q with
    | none => exact .some (h.set (hself _))
    | some q =>
      unfold fork
      dsimp only
      rw [(h.proc q).phase]
      split
      · exact .some ((hnext.set (.freeproc _ _)).set (hself _))
      · exact .none
  | _ => exact .none

/-- `wait` frees the same child in both. -/
theorem State.Agree.wait : Option.Rel State.Agree (s.wait p o) (t.wait p o) := by
  have hself := (h.proc p).setResult hlive
  cases o with
  | wait q =>
    cases q with
    | none => exact .some (h.set (hself _))
    | some q =>
      unfold wait
      dsimp only
      rw [(h.proc q).phase, (h.proc q).parent, (h.proc q).pid]
      split
      · exact .some ((h.set (.freeproc _ _)).set (hself _))
      · exact .none
  | _ => exact .none

/-- Only a process to which an alarm has been delivered calls `sigreturn`. -/
def own (a : Action N) (s : State N) : Bool :=
  match a with
  | .syscall p _ => (s.proc p).trapframe.num = SYS_sigreturn → (s.proc p).alarmed = true
  | _ => true

theorem State.Agree.syscall
    (hown : (s.proc p).trapframe.num = SYS_sigreturn → (s.proc p).alarmed = true) :
    Option.Rel State.Agree (s.syscall p o) (t.syscall p o) := by
  obtain ⟨c, hc, hcs⟩ := (h.proc p).elim hlive
  have hnum : (t.proc p).trapframe.num = (s.proc p).trapframe.num := by rw [hc]; rfl
  have hself := (h.proc p).setResult hlive
  unfold State.syscall
  dsimp only
  rw [hnum]
  split
  · split
    · exact h.fork hlive
    · split
      · exact h.wait hlive
      · split
        · split
          · exact .some (h.set (hself _))
          · next entry sp argc =>
            have hexec : ((s.proc p).exec entry sp).Agree ((t.proc p).exec entry sp) :=
              (h.proc p).map hlive (Proc.exec · entry sp) (fun _ => rfl) hlive rfl rfl
            exact .some (h.set (hexec.setResult hlive argc))
          · exact .none
        · split
          · have hsig := (h.proc p).sys_sigalarm hlive
            refine .some (h.set (hsig.setResult ?_ 0))
            unfold Proc.sys_sigalarm
            dsimp only
            split <;> exact hlive
          · split
            · next hs =>
              -- the saved trapframe is the caller's own, so the same in both
              have heq : t.proc p = s.proc p := by
                rw [hc, hcs (hown hs)]
                rfl
              rw [heq]
              exact .some (h.set (.refl _))
            · split
              · exact .some (h.set (hself _))
              · exact .none
  · exact .some (h.set (hself _))

end

/-- A step that is enabled in one phase of the process only. -/
theorem State.Agree.guard (hf : f ≠ .UNUSED) (hab : (s.proc p).phase ≠ .UNUSED → Alike a b) :
    Alike (if (s.proc p).phase = f then a else none)
      (if (t.proc p).phase = f then b else none) := by
  rw [(h.proc p).phase]
  split
  · next hp => exact hab (by rwa [hp])
  · exact .none

end

theorem Alike.bind {a b : Option (State N)} {f g : State N → Option (Event N × State N)}
    (hab : Option.Rel State.Agree a b) (hfg : ∀ s t, a = some s → s.Agree t → Alike (f s) (g t)) :
    Alike (a.bind f) (b.bind g) := by
  cases hab with
  | none => exact .none
  | some h => exact hfg _ _ rfl h

/-- **One step**: from two states that agree the same step is seen. -/
theorem State.Agree.step (h : s.Agree t) (hown : own a s = true) : Alike (exec a s) (exec a t) := by
  have hsave : ∀ p, (s.proc p).phase ≠ .UNUSED → (s.proc p).save.Agree (t.proc p).save :=
    fun p hp => (h.proc p).map hp Proc.save (fun _ => rfl) hp rfl rfl
  cases a with
  | run p u =>
    refine h.guard (f := .user) nofun fun hp => .some ⟨rfl, h.set ?_⟩
    exact (h.proc p).map hp (fun x => { x with user := u }) (fun _ => rfl) hp rfl rfl
  | ecall p =>
    refine h.guard (f := .user) nofun fun hp => h.unlessKilled (hsave p hp) ?_ hp
    exact (hsave p hp).map hp (fun x => { x with
      trapframe := { x.trapframe with epc := x.trapframe.epc + 4 }, phase := .syscall })
      (fun _ => rfl) nofun rfl rfl
  | intr p timer =>
    refine h.guard (f := .user) nofun fun hp => ?_
    dsimp only
    split
    · obtain ⟨c, hc, -⟩ := (h.proc p).elim hp
      have hdue : (t.proc p).save.alarmDue = (s.proc p).save.alarmDue := by rw [hc]; rfl
      have htf : (t.proc p).save.trapframe = (s.proc p).save.trapframe := by rw [hc]; rfl
      rw [hdue, htf]
      refine h.unlessKilled (hsave p hp) ?_ hp
      exact ((hsave p hp).alarm_handler hp).ret (by rw [alarm_handler_phase]; exact hp)
    · exact h.unlessKilled (hsave p hp) ((hsave p hp).ret hp) hp
  | fault p handled =>
    refine h.guard (f := .user) nofun fun hp => ?_
    dsimp only
    rw [(h.proc p).killed]
    have hfault : ∀ k, Proc.Agree { (s.proc p).save with killed := k }
        { (t.proc p).save with killed := k } := by
      intro k
      exact (hsave p hp).map hp (fun x => { x with killed := k }) (fun _ => rfl) hp rfl rfl
    exact h.unlessKilled (hfault _) ((hfault _).ret hp) hp
  | syscall p o =>
    refine h.guard (f := .syscall) nofun fun hp => ?_
    obtain ⟨c, hc, -⟩ := (h.proc p).elim hp
    have hnum : (t.proc p).trapframe.num = (s.proc p).trapframe.num := by rw [hc]; rfl
    dsimp only
    rw [hnum]
    split
    · exact h.exit hp
    · refine Alike.bind (h.syscall hp (of_decide_eq_true hown)) fun s1 t1 hs1 h1 => ?_
      have hp1 : (s1.proc p).phase ≠ .UNUSED := by
        rw [syscall_phase hs1]
        exact hp
      exact h1.unlessKilled (h1.proc p) ((h1.proc p).ret hp1) hp1
  | usertrapret p k =>
    refine h.guard (f := .ret) nofun fun hp => ?_
    obtain ⟨c, hc, -⟩ := (h.proc p).elim hp
    refine .some ⟨?_, h.set ?_⟩
    · rw [hc]; rfl
    · exact (h.proc p).map hp (Proc.usertrapret · k) (fun _ => rfl) nofun rfl rfl
  | kill p => exact .some ⟨rfl, h.set (h.proc p).kill⟩

end Agree

/-- Every `sigreturn` on the way is by a process to which an alarm has been
    delivered since it was created. -/
def ownRun : List (Action N) → State N → Bool
  | [], _ => true
  | a :: as, s => own a s && (exec a s).all fun r => ownRun as r.2

/-- **Whole runs**: from two states that agree the same labels are seen. -/
theorem State.Agree.runs {as : List (Action N)} {s t s' : State N} {tr : List (Event N)}
    (h : s.Agree t) (hown : ownRun as s = true) (hrun : replay exec as s = some (tr, s')) :
    ∃ t', replay exec as t = some (tr, t') := by
  induction as generalizing s t tr with
  | nil =>
    cases hrun
    exact ⟨t, rfl⟩
  | cons a as ih =>
    obtain ⟨hfirst, hrest⟩ := Bool.and_eq_true_iff.mp hown
    have hstep := h.step hfirst
    unfold replay at hrun ⊢
    generalize exec a s = rs at hstep hrun hrest
    generalize exec a t = rt at hstep
    cases hstep with
    | none => cases hrun
    | @some r r' hr =>
      obtain ⟨e, s1⟩ := r
      obtain ⟨e', t1⟩ := r'
      obtain ⟨he, h1⟩ := hr
      obtain rfl : e' = e := he
      obtain ⟨⟨es, s2⟩, hs2, heq⟩ := map_eq_some_iff.mp hrun
      cases heq
      obtain ⟨t2, ht2⟩ := ih h1 hrest hs2
      exact ⟨t2, map_eq_some_iff.mpr ⟨_, ht2, rfl⟩⟩

/-- Two states that differ only in what the process in slot `q` has left in its
    registers, its trapframe and its alarm. -/
structure DifferAt (q : Fin N) (s t : State N) : Prop where
  nextpid : t.nextpid = s.nextpid
  initproc : t.initproc = s.initproc
  others : ∀ p, p ≠ q → t.proc p = s.proc p
  phase : (t.proc q).phase = (s.proc q).phase
  killed : (t.proc q).killed = (s.proc q).killed
  pid : (t.proc q).pid = (s.proc q).pid
  parent : (t.proc q).parent = (s.proc q).parent

/-- **Register isolation.**  Two runs have come to `s` and `t`, where the process
    in slot `q` has exited and has been waited for, and differ only in the values
    of its registers.  From there the same steps are taken.  While `sigreturn` is
    called only by processes to which an alarm has been delivered, both runs look
    the same: every process is resumed in user mode with the same registers. -/
theorem register_isolation {s t s' : State N} {q : Fin N} (hfree : (s.proc q).phase = .UNUSED)
    (hdiff : DifferAt q s t) {as : List (Action N)} (hown : ownRun as s = true)
    {tr : List (Event N)} (hrun : replay exec as s = some (tr, s')) :
    ∃ t', replay exec as t = some (tr, t') := by
  have hagree : s.Agree t := by
    refine ⟨hdiff.nextpid, hdiff.initproc, fun p => ?_⟩
    by_cases hp : p = q
    · subst hp
      exact .free _ hfree (hdiff.phase.trans hfree) hdiff.killed hdiff.pid hdiff.parent
    · rw [hdiff.others p hp]
      exact .refl _
  exact hagree.runs hown hrun

/-- The first process and the slot that its children get. -/
def parent : Fin NPROC := ⟨0, Nat.zero_lt_succ 63⟩

def child : Fin NPROC := ⟨1, by decide⟩

/-- A system call of process `p`, from the trap to the return. -/
def calls (p : Fin NPROC) (num arg0 arg1 : Word) (o : Outcome NPROC) : List (Action NPROC) :=
  [.run p ⟨0, callRegs num arg0 arg1⟩, .ecall p, .syscall p o, .usertrapret p ⟨0, 0, 0, 0⟩]

/-- The parent, about to leave `fork`, and its child. -/
def forks : List (Action NPROC) :=
  calls parent 1 0 0 (.fork child) ++ [.usertrapret child ⟨0, 0, 0, 0⟩]

/-- The child sets an alarm and is interrupted with `v` in `s1`. -/
def alarmed (v : Word) : List (Action NPROC) :=
  calls child 26 1 64 (.ret 0) ++
    [.run child ⟨32, update (callRegs 0 0 0) .s1 v⟩, .intr child true,
      .usertrapret child ⟨0, 0, 0, 0⟩]

/-- The child returns from its handler. -/
def returns : List (Action NPROC) := calls child 27 0 0 (.ret 0)

/-- A child that is interrupted by its alarm exits in its handler and is waited
    for; a second child in the same slot calls `sigreturn`. -/
def leak (v : Word) : List (Action NPROC) :=
  [.usertrapret parent ⟨0, 0, 0, 0⟩] ++ forks ++ alarmed v ++
    [.run child ⟨64, callRegs 2 0 0⟩, .ecall child, .syscall child (.ret 0)] ++
    calls parent 3 0 0 (.wait (some child)) ++ forks ++ returns

/-- The last label is the resumption of the child with `v` in `s1`. -/
def resumesWith (v : Word) (tr : List (Event NPROC)) : Bool :=
  match tr.getLast? with
  | some (.resume p u) => p = child ∧ u.reg .s1 = v
  | _ => false

/-- The state after `userinit`, and the same with other words in the alarm of an
    unused slot. -/
def booted : State NPROC := init parent.pos

def bootedJunk : State NPROC := booted.set child ((booted.proc child).withSaved .junk)

/-- A child that returns from its own handler cannot tell the two apart. -/
theorem register_isolation_handler :
    ∃ tr s t, replay exec ([.usertrapret parent ⟨0, 0, 0, 0⟩] ++ forks ++ alarmed 7 ++ returns)
        booted = some (tr, s) ∧
      replay exec ([.usertrapret parent ⟨0, 0, 0, 0⟩] ++ forks ++ alarmed 7 ++ returns) bootedJunk =
        some (tr, t) := by
  have hrun : (replay exec ([.usertrapret parent ⟨0, 0, 0, 0⟩] ++ forks ++ alarmed 7 ++ returns)
    booted).isSome = true := by decide +kernel
  obtain ⟨⟨tr, s⟩, hs⟩ := isSome_iff_exists.mp hrun
  have hdiff : DifferAt child booted bootedJunk := by
    refine ⟨rfl, rfl, fun p hp => State.set_ne hp, ?_, ?_, ?_, ?_⟩
    all_goals
      unfold bootedJunk
      rw [State.set_self]
      rfl
  obtain ⟨t, ht⟩ := register_isolation (q := child) (by decide) hdiff (by decide +kernel) hs
  exact ⟨tr, s, t, hs, ht⟩

/-- Two runs that differ in one register of the first child: the second child is
    resumed with the value of that register. -/
theorem register_isolation_fail :
    (replay exec (leak 7) booted).any (fun r => resumesWith 7 r.1) = true ∧
      (replay exec (leak 8) booted).any (fun r => resumesWith 8 r.1) = true := by
  constructor <;> decide +kernel

/-! ## 4. Turning alarms off -/

/-- The traps that concern the alarm of a process, a timer interrupt in user mode
    and two system calls, with the trapframe they find. -/
inductive Alarm where
  | tick (t : Trapframe)
  | sigalarm (t : Trapframe)
  | sigreturn (t : Trapframe)

/-- A `sigalarm` call with another interval than 0. -/
def Alarm.turnsOn : Alarm → Bool
  | .sigalarm t => (t.reg .a0).setWidth 32 ≠ 0#32
  | _ => false

namespace Proc

variable {x y : Proc N} {ks : List Alarm} {k : Alarm} {t : Trapframe} {p : Fin N} {e : Event N}
  {tr : List (Event N)} {s s' : State N} {a : Action N}

def serve (x : Proc N) : Alarm → Proc N
  | .tick t => { x with trapframe := t }.alarm_handler
  | .sigalarm t => { x with trapframe := t }.sys_sigalarm
  | .sigreturn t => { x with trapframe := t }.sys_sigreturn

/-- The handler is entered at this trap. -/
def entersAt (x : Proc N) : Alarm → Bool
  | .tick _ => x.alarmDue
  | _ => false

/-- The handler is entered at one of the traps. -/
def enters (x : Proc N) : List Alarm → Bool
  | [] => false
  | k :: ks => x.entersAt k || (x.serve k).enters ks

/-- After a `sigalarm(0, _)` the handler is not entered until a `sigalarm` with
    another interval. -/
def Stops (x : Proc N) : Prop :=
  ∀ t, (t.reg .a0).setWidth 32 = 0#32 → ∀ ks, (∀ k ∈ ks, k.turnsOn = false) →
    (x.serve (.sigalarm t)).enters ks = false

theorem serve_zero (h : (t.reg .a0).setWidth 32 = 0#32) :
    x.serve (.sigalarm t) = { x with trapframe := t } := if_pos h

/-- Without an interval nothing happens. -/
theorem serve_off (h : x.trapalarm.interval = 0) (hk : k.turnsOn = false) :
    x.entersAt k = false ∧ (x.serve k).trapalarm.interval = 0 := by
  cases k with
  | tick t =>
    refine ⟨by simp [entersAt, alarmDue, h], ?_⟩
    rw [serve, alarm_handler, if_neg fun hc => hc h]
    exact h
  | sigalarm t =>
    rw [serve_zero (not_not.mp (of_decide_eq_false hk))]
    exact ⟨rfl, h⟩
  | sigreturn t => exact ⟨rfl, h⟩

theorem enters_off (h : x.trapalarm.interval = 0) (hks : ∀ k ∈ ks, k.turnsOn = false) :
    x.enters ks = false := by
  induction ks generalizing x with
  | nil => rfl
  | cons k ks ih =>
    obtain ⟨hk, hoff⟩ := serve_off h (hks k List.mem_cons_self)
    rw [enters, hk]
    exact ih hoff fun k hk => hks k (List.mem_cons_of_mem _ hk)

/-- With an interval the handler is entered after so many ticks. -/
theorem enters_ticks {d : Nat} (hs : x.trapalarm.state = 0) (hi : x.trapalarm.interval ≠ 0)
    (hd : (x.trapalarm.interval - (x.trapalarm.ticks + 1)).toNat = d) :
    x.enters (List.replicate (d + 1) (.tick t)) = true := by
  induction d generalizing x with
  | zero =>
    have hdue : x.alarmDue = true := decide_eq_true ⟨hi, hs, by bv_omega⟩
    rw [List.replicate, enters, entersAt, hdue]
    rfl
  | succ d ih =>
    rw [List.replicate, enters, Bool.or_eq_true]
    right
    have hne : x.trapalarm.ticks + 1 ≠ x.trapalarm.interval := by bv_omega
    rw [serve, alarm_handler, if_pos hi, if_pos hs, if_neg hne]
    exact ih hs hi (by dsimp only; bv_omega)

/-- What a trap does to the alarm depends on the alarm alone. -/
theorem serve_congr (h : y.trapalarm = x.trapalarm) :
    y.entersAt k = x.entersAt k ∧ (y.serve k).trapalarm = (x.serve k).trapalarm := by
  cases k with
  | tick t =>
    simp only [entersAt, alarmDue, serve, alarm_handler, h, true_and]
    repeat' split
    all_goals rfl
  | sigalarm t =>
    simp only [entersAt, serve, sys_sigalarm, h, true_and]
    split <;> rfl
  | sigreturn t => simp only [entersAt, serve, sys_sigreturn, h, true_and]

/-- A step with label `e` is a trap for the alarm of `p`, or leaves it alone. -/
def Serves (p : Fin N) (x : Proc N) (e : Event N) (y : Proc N) : Prop :=
  (y.trapalarm = x.trapalarm ∧ ∀ t, e ≠ .redirect p t) ∨
    ∃ k, y.trapalarm = (x.serve k).trapalarm ∧
      (x.entersAt k = true ↔ ∃ t, e = .redirect p t) ∧
      (k.turnsOn = true → e = .call p SYS_sigalarm)

/-- A step of the process itself. -/
theorem Step.serves (h : x.Step p e y) (hexit : e ≠ .exit p) : Serves p x e y := by
  cases h with
  | run | kill | ecall | device | usertrapret => exact .inl ⟨rfl, nofun⟩
  | timer _ =>
    refine .inr ⟨.tick x.save.trapframe, rfl, ?_, nofun⟩
    change x.save.alarmDue = true ↔ _
    split <;> simp_all
  | call y r _ _ hy =>
    cases hy with
    | same | exec => exact .inl ⟨rfl, nofun⟩
    | sigalarm hnum => exact .inr ⟨.sigalarm x.trapframe, rfl, by simp [entersAt], by simp [hnum]⟩
  | sigreturn _ _ => exact .inr ⟨.sigreturn x.trapframe, rfl, by simp [entersAt], nofun⟩
  | exit _ _ _ => exact absurd rfl hexit

theorem Step.live (h : x.Step p e y) (hexit : e ≠ .exit p) (hlive : x.Live) : y.Live := by
  cases h with
  | run | kill => exact hlive
  | exit _ _ _ => exact absurd rfl hexit
  | _ => exact ⟨nofun, nofun⟩

/-- A step of the system. -/
theorem exec_serves (hex : Trap.exec a s = some (e, s')) (hlive : (s.proc p).Live)
    (hexit : e ≠ .exit p) : (s'.proc p).Live ∧ Serves p (s.proc p) e (s'.proc p) := by
  obtain ⟨hframe, hstep⟩ := exec_cases hex
  by_cases hp : p = a.actor
  · subst hp
    exact ⟨hstep.live hexit hlive, hstep.serves hexit⟩
  · rw [hframe p hp hlive]
    refine ⟨hlive, .inl ⟨rfl, ?_⟩⟩
    rintro t rfl
    exact hp hstep.redirect.1.symm

/-- **Runs of the system**: until `p` exits, its alarm serves one trap after the other,
    and the handler is entered in the run if and only if it is at these traps. -/
theorem enters_of_path (h : Path (system N) s tr s') (hlive : (s.proc p).Live)
    (hexit : .exit p ∉ tr) (hx : (s.proc p).trapalarm = x.trapalarm) :
    ∃ ks, (s'.proc p).trapalarm = (ks.foldl serve x).trapalarm ∧
      (x.enters ks = true ↔ ∃ t, .redirect p t ∈ tr) ∧
      ∀ k ∈ ks, k.turnsOn = true → .call p SYS_sigalarm ∈ tr := by
  induction tr generalizing s x with
  | nil =>
    obtain rfl := h.eq_of_nil
    exact ⟨[], hx, by simp [enters], nofun⟩
  | cons e tr ih =>
    obtain ⟨s₁, ⟨a, hex⟩, hpath⟩ := h.head
    obtain ⟨hne, hexit⟩ := not_or.mp (mt List.mem_cons.mpr hexit)
    obtain ⟨hlive, ⟨hsame, hno⟩ | ⟨k, hk, henters, hon⟩⟩ := exec_serves hex hlive (Ne.symm hne)
    · -- not a trap for this alarm
      obtain ⟨ks, hend, hks, hons⟩ := ih hpath hlive hexit (hsame.trans hx)
      refine ⟨ks, hend, by simp [hks, fun t => (hno t).symm], ?_⟩
      exact fun k hk hon => List.mem_cons_of_mem _ (hons k hk hon)
    · obtain ⟨hat, hserve⟩ := serve_congr (k := k) hx
      obtain ⟨ks, hend, hks, hons⟩ := ih hpath hlive hexit (hk.trans hserve)
      refine ⟨k :: ks, hend, ?_, ?_⟩
      · rw [enters, Bool.or_eq_true, ← hat, henters, hks, ← exists_or]
        simp only [List.mem_cons, eq_comm]
      · intro k' hk' hon'
        rcases List.mem_cons.mp hk' with rfl | hk'
        · rw [hon hon']
          exact List.mem_cons_self
        · exact List.mem_cons_of_mem _ (hons k' hk' hon')

/-- A process without an interval is not sent to its handler before it calls
    `sigalarm`. -/
theorem not_redirect_of_off (h : Path (system N) s tr s') (hlive : (s.proc p).Live)
    (hexit : .exit p ∉ tr) (hoff : (s.proc p).trapalarm.interval = 0)
    (hcall : .call p SYS_sigalarm ∉ tr) : .redirect p t ∉ tr := by
  obtain ⟨ks, -, hks, hons⟩ := enters_of_path h hlive hexit rfl
  intro ht
  have henters := hks.mpr ⟨t, ht⟩
  rw [enters_off hoff] at henters
  · cases henters
  · intro k hk
    rw [← Bool.not_eq_true]
    exact fun hon => hcall (hons k hk hon)

/-- **`sigalarm(0, _)`** stops alarms if and only if there are none: `sys_sigalarm`
    returns before it stores an interval of 0. -/
theorem sigalarm_zero_stops_iff : x.Stops ↔ x.trapalarm.interval = 0 := by
  constructor
  · intro h
    by_contra hi
    -- `sigreturn`, and then ticks until the alarm is due
    have hoff : ∀ n, (x.serve (.sigreturn .zero)).enters (List.replicate n (.tick .zero)) =
        false := by
      intro n
      refine h .zero rfl (.sigreturn .zero :: List.replicate n (.tick .zero)) fun k hk => ?_
      rcases List.mem_cons.mp hk with rfl | hk
      · rfl
      · rw [List.eq_of_mem_replicate hk]
        rfl
    cases (hoff _).symm.trans (enters_ticks rfl hi rfl)
  · intro h t ht ks
    rw [serve_zero ht]
    exact enters_off h

/-- `sigalarm(1, 64)`, `sigalarm(0, 0)`, and a timer interrupt. -/
theorem sigalarm_zero_ignored :
    ¬ (((init Nat.one_pos).proc initcode).serve
          (.sigalarm ⟨0, 0, 0, 0, 0, callRegs 26 1 64⟩)).Stops := by
  intro h
  have hoff := h .zero rfl [.tick .zero] (by decide)
  revert hoff
  decide

end Proc

end NoviceKernel.Trap
