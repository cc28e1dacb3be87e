import NoviceKernel.Lib.TransitionSystem
import Mathlib.Logic.Function.Basic

/-! # Processes (`proc.c`)

    Any number of harts run their schedulers and the kernel threads of the
    processes: `fork`, `exit`, `wait`, `kill`, `sleep`, `wakeup` and `yield` with
    the locks they take.

    1. **Data**: `struct proc`, `struct cpu`, program points.
    2. **Steps**: of a scheduler, of the process that a hart runs, and of an
       interrupt that wakes sleepers up.

    A step is what happens between two points at which another hart can get in
    between: a section under some `p->lock`, or under `wait_lock` where no other
    lock is taken inside.  A `p->lock` that is handed over through `swtch` stays
    held between steps. -/

namespace NoviceKernel.Process

open TransitionSystem

/-! ## 1. Data -/

/-- `enum procstate`. -/
inductive ProcState where
  | UNUSED
  | USED
  | SLEEPING
  | RUNNABLE
  | RUNNING
  | ZOMBIE
  deriving DecidableEq

/-- What a process sleeps on: a process structure (in `wait`), or anything else. -/
inductive Chan (N : Nat) where
  | proc (p : Fin N)
  | other (n : Nat)
  deriving DecidableEq

/-- Where the kernel thread of a process is. -/
inductive PC (N : Nat) where
  /-- In user mode, or in code that does not touch the process table. -/
  | run
  /-- `allocproc`, called by `fork`: at slot `k` of its scan. -/
  | forkAlloc (k : Nat)
  /-- `fork`: about to take `wait_lock` and set `np->parent`. -/
  | forkParent (np : Fin N)
  /-- `fork`: about to take `np->lock` and make the child RUNNABLE. -/
  | forkRunnable (np : Fin N)
  /-- `exit(status)`: about to `acquire(&wait_lock)`. -/
  | exitAcquire (status : Int)
  /-- `reparent`, at slot `k`. -/
  | exitReparent (status : Int) (k : Nat)
  /-- `wakeup(initproc)` for the child in slot `k`, at slot `j`. -/
  | exitWakeInit (status : Int) (k j : Nat)
  /-- `wakeup(p->parent)`, at slot `j`. -/
  | exitWakeParent (status : Int) (parent : Option (Fin N)) (j : Nat)
  /-- `exit`: about to take `p->lock`. -/
  | exitZombie (status : Int)
  /-- `wait(addr)`: about to `acquire(&wait_lock)`, at the call or at the end of
      `sleep`; `addr` is whether the address is not 0. -/
  | waitAcquire (addr : Bool)
  /-- `wait`: the scan for children, at slot `k`. -/
  | waitScan (addr : Bool) (k : Nat) (havekids : Bool)
  /-- `wait`: about to `sleep(p, &wait_lock)`. -/
  | waitSleep (addr : Bool)
  /-- `kill(pid)`, at slot `k`. -/
  | kill (pid : BitVec 32) (k : Nat)
  deriving DecidableEq

/-- How far a thread is in giving up its hart. -/
inductive Switch (N : Nat) where
  | no
  /-- `yield`: `p->lock` taken. -/
  | yielding
  /-- In the `sched` of `yield`. -/
  | yielded
  /-- `sleep(c, lk)`: `p->lock` taken, `lk` not yet released. -/
  | sleepLocked (c : Chan N)
  /-- `sleep(c, lk)`: `lk` released. -/
  | sleepUnlocked (c : Chan N)
  /-- In the `sched` of `sleep`. -/
  | slept
  /-- Not run yet: will start in `forkret`. -/
  | forkret
  deriving DecidableEq

/-- `struct proc`. -/
structure Proc (N H : Nat) where
  /-- The hart that holds `p->lock`. -/
  lock : Option (Fin H)
  state : ProcState
  chan : Option (Chan N)
  killed : Bool
  xstate : Int
  pid : BitVec 32
  parent : Option (Fin N)
  pc : PC N
  switch : Switch N

/-- Where a hart is. -/
inductive CpuPC (N : Nat) where
  /-- `scheduler`: about to take the lock of slot `k`. -/
  | scheduler (k : Nat)
  /-- `scheduler`: holding `p->lock`, about to look at `p->state`. -/
  | test (p : Fin N)
  /-- In the thread of `p`. -/
  | running (p : Fin N)
  /-- `scheduler`: back from `swtch` with `p->lock`. -/
  | switched (p : Fin N)
  deriving DecidableEq

/-- `struct cpu`. -/
structure Cpu (N : Nat) where
  proc : Option (Fin N)
  pc : CpuPC N

structure State (N H : Nat) where
  proc : Fin N → Proc N H
  cpu : Fin H → Cpu N
  /-- The process that holds `wait_lock`. -/
  wait_lock : Option (Fin N)
  nextpid : BitVec 32
  initproc : Fin N
  /-- How many pids `allocpid` has handed out. -/
  given : Nat

/-- What a step is seen to do. -/
inductive Event (N H : Nat) where
  | tau
  /-- The scheduler of `h` makes `p` RUNNING. -/
  | dispatch (h : Fin H) (p : Fin N)
  /-- The `allocproc` of `p` returns slot `q`. -/
  | alloc (p q : Fin N)
  /-- `p` becomes a ZOMBIE. -/
  | exited (p : Fin N) (status : Int)
  /-- The `wait` of `p` frees slot `q` and returns `pid`; the status it has
      stored, if it was asked to. -/
  | waited (p q : Fin N) (pid : BitVec 32) (status : Option Int)
  /-- The `kill(pid)` of `p` marks slot `q`. -/
  | killed (p : Fin N) (pid : BitVec 32) (q : Fin N)
  /-- A `wakeup` looks at slot `q`. -/
  | wakeup (q : Fin N)
  /-- `p` marks itself as killed in `usertrap`. -/
  | trapped (p : Fin N)
  deriving DecidableEq

/-- What a process does next, where the code leaves it open. -/
inductive Choice where
  /-- The next step of the function it is in; `ok`: memory is found, `copyout`
      succeeds. -/
  | next (ok : Bool)
  | yield
  | fork
  | exit (status : Int)
  | wait (addr : Bool)
  | kill (pid : BitVec 32)
  | sleep (n : Nat)
  /-- An exception that `usertrap` cannot handle. -/
  | trap

inductive Action (N H : Nat) where
  /-- A step of the scheduler of hart `h`. -/
  | scheduler (h : Fin H)
  /-- A step of the process that hart `h` runs. -/
  | run (h : Fin H) (c : Choice)
  /-- A `wakeup` on a channel that is not a process, by a process or by an
      interrupt, reaches slot `q`. -/
  | wakeup (n : Nat) (q : Fin N)

variable {N H : Nat}

/-! ## 2. Steps -/

/-- The fields that `freeproc` clears. -/
def Proc.freeproc (x : Proc N H) : Proc N H :=
  { x with pid := 0, parent := none, chan := none, killed := false, xstate := 0, state := .UNUSED }

/-- The fields that `allocproc` sets; `killed` is not among them. -/
def Proc.allocproc (x : Proc N H) (pid : BitVec 32) : Proc N H :=
  { x with pid := pid, state := .USED, pc := .run, switch := .forkret }

/-- Asleep on `c`. -/
def Proc.sleepsOn (x : Proc N H) (c : Option (Chan N)) : Bool := x.state = .SLEEPING ∧ x.chan = c

/-- The program points inside a section of `wait_lock`. -/
def PC.holdsWait : PC N → Bool
  | exitReparent _ _ | exitWakeInit _ _ _ | exitWakeParent _ _ _ | exitZombie _
  | waitScan _ _ _ | waitSleep _ => true
  | _ => false

namespace State

variable (s : State N H)

/-- Change the process in slot `p`. -/
def upd (p : Fin N) (f : Proc N H → Proc N H) : State N H :=
  { s with proc := Function.update s.proc p (f (s.proc p)) }

/-- Move process `p` to program point `c`. -/
def goto (p : Fin N) (c : PC N) : State N H := s.upd p fun x => { x with pc := c }

def setCpu (h : Fin H) (c : Cpu N) : State N H :=
  { s with cpu := Function.update s.cpu h c }

/-- `allocpid`. -/
def allocpid : State N H :=
  { s with nextpid := s.nextpid + 1, given := s.given + 1 }

/-- The section of a `wakeup` at slot `q`. -/
def wake (c : Option (Chan N)) (q : Fin N) : State N H :=
  if (s.proc q).sleepsOn c then s.upd q fun x => { x with state := .RUNNABLE } else s

end State

/-- The outcome of a step of a process; the flag says whether it has called
    `swtch`. -/
abbrev Out (N H : Nat) := Event N H × State N H × Bool

/-- The process goes on. -/
def stay (e : Event N H) (s : State N H) : Option (Out N H) := some (e, s, false)

/-- The process has called `swtch`. -/
def swtch (e : Event N H) (s : State N H) : Option (Out N H) := some (e, s, true)

/-- A step that needs the lock of slot `q`. -/
def locking (s : State N H) (q : Fin N) (r : Option (Out N H)) : Option (Out N H) :=
  if (s.proc q).lock = none then r else none

/-- A round of a loop over the process table; `done` after the last one. -/
def atSlot (k : Nat) (f : Fin N → Option (Out N H)) (done : Option (Out N H)) : Option (Out N H) :=
  if hk : k < N then f ⟨k, hk⟩ else done

/-- A round of `wakeup(c)` by `p` at slot `j`; `next` is the following point, `done`
    the one after the loop. -/
def wakeup (s : State N H) (p : Fin N) (c : Option (Chan N)) (j : Nat) (next done : PC N) :
    Option (Out N H) :=
  atSlot j
    (fun q =>
      if q = p then stay .tau (s.goto p next)
      else locking s q (stay (.wakeup q) ((s.wake c q).goto p next)))
    (stay .tau (s.goto p done))

/-- The steps of `yield`, `sleep` and `forkret`, for the process that hart `h` runs. -/
def switchStep (p : Fin N) (s : State N H) : Switch N → Option (Out N H)
  | .no => none
  | .yielding => swtch .tau (s.upd p fun x => { x with state := .RUNNABLE, switch := .yielded })
  | .yielded => stay .tau (s.upd p fun x => { x with lock := none, switch := .no })
  | .sleepLocked c =>
    -- release(lk); of the locks that are passed to sleep only wait_lock is modelled
    match (s.proc p).pc with
    | .waitSleep addr =>
      stay .tau
          { s.upd p fun x => { x with pc := .waitAcquire addr, switch := .sleepUnlocked c } with
        wait_lock := none }
    | _ => stay .tau (s.upd p fun x => { x with switch := .sleepUnlocked c })
  | .sleepUnlocked c =>
    swtch .tau (s.upd p fun x => { x with chan := some c, state := .SLEEPING, switch := .slept })
  | .slept => stay .tau (s.upd p fun x => { x with chan := none, lock := none, switch := .no })
  | .forkret => stay .tau (s.upd p fun x => { x with lock := none, switch := .no })

section

variable (h : Fin H) (p : Fin N)

/-- A process outside of the functions below calls one of them. -/
def callStep (s : State N H) : Choice → Option (Out N H)
  | .fork => stay .tau (s.goto p (.forkAlloc 0))
  | .exit status =>
    -- panic("init exiting")
    if p = s.initproc then none else stay .tau (s.goto p (.exitAcquire status))
  | .wait addr => stay .tau (s.goto p (.waitAcquire addr))
  | .kill pid => stay .tau (s.goto p (.kill pid 0))
  | .sleep n =>
    locking s p
      (stay .tau (s.upd p fun x => { x with lock := some h, switch := .sleepLocked (.other n) }))
  | .trap => stay (.trapped p) (s.upd p fun x => { x with killed := true })
  | _ => none

/-- `fork`, with the scan of `allocproc`. -/
def forkStep (p : Fin N) (ok : Bool) (s : State N H) : PC N → Option (Out N H)
  | .forkAlloc k =>
    atSlot k
      (fun q => locking s q
        (if (s.proc q).state = .UNUSED then
          let np := (s.proc q).allocproc s.nextpid
          if ok then stay (.alloc p q) ((s.allocpid.upd q fun _ => np).goto p (.forkParent q))
          else stay .tau ((s.allocpid.upd q fun _ => np.freeproc).goto p .run)
        else stay .tau (s.goto p (.forkAlloc (k + 1)))))
      (stay .tau (s.goto p .run))
  | .forkParent np =>
    if s.wait_lock = none then
      stay .tau ((s.upd np fun x => { x with parent := some p }).goto p (.forkRunnable np))
    else none
  | .forkRunnable np =>
    locking s np (stay .tau ((s.upd np fun x => { x with state := .RUNNABLE }).goto p .run))
  | _ => none

/-- `exit`, with `reparent`. -/
def exitStep (s : State N H) : PC N → Option (Out N H)
  | .exitAcquire status =>
    if s.wait_lock = none then
      stay .tau { s.goto p (.exitReparent status 0) with wait_lock := some p }
    else none
  | .exitReparent status k =>
    atSlot k
      (fun q =>
        if (s.proc q).parent = some p then
          stay .tau ((s.upd q fun x => { x with parent := some s.initproc }).goto p
            (.exitWakeInit status k 0))
        else stay .tau (s.goto p (.exitReparent status (k + 1))))
      (stay .tau (s.goto p (.exitWakeParent status (s.proc p).parent 0)))
  | .exitWakeInit status k j =>
    wakeup s p (some (.proc s.initproc)) j (.exitWakeInit status k (j + 1))
      (.exitReparent status (k + 1))
  | .exitWakeParent status parent j =>
    wakeup s p (parent.map .proc) j (.exitWakeParent status parent (j + 1)) (.exitZombie status)
  | .exitZombie status =>
    locking s p (swtch (.exited p status)
      { s.upd p fun x => { x with
          lock := some h, xstate := status, state := .ZOMBIE, pc := .run } with
        wait_lock := none })
  | _ => none

/-- `wait`. -/
def waitStep (ok : Bool) (s : State N H) : PC N → Option (Out N H)
  | .waitAcquire addr =>
    if s.wait_lock = none then
      stay .tau { s.goto p (.waitScan addr 0 false) with wait_lock := some p }
    else none
  | .waitScan addr k havekids =>
    atSlot k
      (fun q =>
        if (s.proc q).parent = some p then
          locking s q
            (if (s.proc q).state = .ZOMBIE then
              -- copyout fails: -1, and the child stays
              if addr = true ∧ ok = false then stay .tau { s.goto p .run with wait_lock := none }
              else
                stay (.waited p q (s.proc q).pid (if addr then some (s.proc q).xstate else none))
                  { (s.upd q Proc.freeproc).goto p .run with wait_lock := none }
            else stay .tau (s.goto p (.waitScan addr (k + 1) true)))
        else stay .tau (s.goto p (.waitScan addr (k + 1) havekids)))
      (if havekids = false ∨ (s.proc p).killed = true then
        stay .tau { s.goto p .run with wait_lock := none }
      else stay .tau (s.goto p (.waitSleep addr)))
  | .waitSleep _ =>
    locking s p
      (stay .tau (s.upd p fun x => { x with lock := some h, switch := .sleepLocked (.proc p) }))
  | _ => none

/-- `kill`. -/
def killStep (p : Fin N) (s : State N H) : PC N → Option (Out N H)
  | .kill pid k =>
    atSlot k
      (fun q => locking s q
        (if (s.proc q).pid = pid then
          stay (.killed p pid q)
            ((s.upd q fun x => { x with
              killed := true, state := if x.state = .SLEEPING then .RUNNABLE
                else x.state }).goto p .run)
        else stay .tau (s.goto p (.kill pid (k + 1)))))
      (stay .tau (s.goto p .run))
  | _ => none

/-- The next step of the process `p` that hart `h` runs. -/
def procStep (c : Choice) (s : State N H) : Option (Out N H) :=
  let x := s.proc p
  if x.switch ≠ .no then switchStep p s x.switch
  else match c, x.pc with
    | .yield, pc =>
      -- with wait_lock held interrupts are off
      if pc.holdsWait then none
      else locking s p (stay .tau (s.upd p fun x => { x with lock := some h, switch := .yielding }))
    | c, .run => callStep h p s c
    | .next ok, pc =>
      match pc with
      | .forkAlloc _ | .forkParent _ | .forkRunnable _ => forkStep p ok s pc
      | .exitAcquire _ | .exitReparent _ _ | .exitWakeInit _ _ _ | .exitWakeParent _ _ _
      | .exitZombie _ => exitStep h p s pc
      | .waitAcquire _ | .waitScan _ _ _ | .waitSleep _ => waitStep h p ok s pc
      | .kill _ _ => killStep p s pc
      | .run => none
    | _, _ => none

end

/-- A step of the scheduler of hart `h`. -/
def schedulerStep (h : Fin H) (s : State N H) : Option (Event N H × State N H) :=
  match (s.cpu h).pc with
  | .scheduler k =>
    if hk : k < N then
      let p : Fin N := ⟨k, hk⟩
      if (s.proc p).lock = none then
        some (.tau, (s.upd p fun x => { x with lock := some h }).setCpu h
          { s.cpu h with pc := .test p })
      else none
    else some (.tau, s.setCpu h { s.cpu h with pc := .scheduler 0 })
  | .test p =>
    if (s.proc p).state = .RUNNABLE then
      some (.dispatch h p, (s.upd p fun x => { x with state := .RUNNING }).setCpu h
        ⟨some p, .running p⟩)
    else
      some (.tau, (s.upd p fun x => { x with lock := none }).setCpu h
        { s.cpu h with pc := .scheduler (p + 1) })
  | .running _ => none
  | .switched p =>
    some (.tau, (s.upd p fun x => { x with lock := none }).setCpu h ⟨none, .scheduler (p + 1)⟩)

/-- The steps of the system. -/
def exec : Action N H → State N H → Option (Event N H × State N H)
  | .scheduler h, s => schedulerStep h s
  | .run h c, s =>
    match (s.cpu h).pc with
    | .running p =>
      (procStep h p c s).map fun r =>
        (r.1, if r.2.2 then r.2.1.setCpu h ⟨some p, .switched p⟩ else r.2.1)
    | _ => none
  | .wakeup n q, s =>
    if (s.proc q).lock = none then some (.wakeup q, s.wake (some (.other n)) q) else none

/-- After `userinit`, before the schedulers start. -/
def init (hN : 0 < N) : State N H where
  proc := fun p =>
    { lock := none
      state := if p = ⟨0, hN⟩ then .RUNNABLE else .UNUSED
      chan := none
      killed := false
      xstate := 0
      pid := if p = ⟨0, hN⟩ then 1 else 0
      parent := none
      pc := .run
      switch := .forkret }
  cpu := fun _ => ⟨none, .scheduler 0⟩
  wait_lock := none
  nextpid := 2
  initproc := ⟨0, hN⟩
  given := 1

def Initial (s : State N H) : Prop := ∃ hN, s = init hN

theorem initial_init (hN : 0 < N) : Initial (init hN : State N H) := ⟨hN, rfl⟩

def system (N H : Nat) : System (State N H) (Event N H) := ofExec Initial exec

end NoviceKernel.Process
