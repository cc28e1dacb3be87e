import NoviceKernel.Proc
import NoviceKernel.Lib.Count
import NoviceKernel.Lib.LockPhase

/-! # The process table and the schedulers

    1. **Inversion**: the moves of a process, and what they do to the scheduling
       state of its own slot and of the others.
    2. **Invariant**: who holds which `p->lock`, across `swtch` too. -/

namespace NoviceKernel.Process

open TransitionSystem LockPhase Function Count State Cpu

variable {N H : Nat}

/-! ## 1. Inversion -/

section Basic

variable {s s' : State N H} {p q : Fin N} {f : Proc N H → Proc N H} {c : PC N} {o : Out N H}
  {r : Option (Out N H)} {k : Nat} {g : Fin N → Option (Out N H)} {h : Fin H}

@[simp] theorem State.upd_self : (s.upd p f).proc p = f (s.proc p) := by simp [upd]

@[simp] theorem State.upd_ne (h : q ≠ p) : (s.upd p f).proc q = s.proc q := by simp [upd, h]

@[simp] theorem State.upd_cpu : (s.upd p f).cpu = s.cpu := rfl

@[simp] theorem State.goto_cpu : (s.goto p c).cpu = s.cpu := rfl

@[simp] theorem State.goto_self : (s.goto p c).proc p = { s.proc p with pc := c } := upd_self

@[simp] theorem State.goto_ne (h : q ≠ p) : (s.goto p c).proc q = s.proc q := upd_ne h

@[simp] theorem State.setCpu_proc {d : Cpu N} : (s.setCpu h d).proc = s.proc := rfl

@[simp] theorem State.setCpu_cpu {d : Cpu N} : (s.setCpu h d).cpu = update s.cpu h d := rfl

theorem State.upd_goto : (s.upd p f).goto p c = s.upd p fun x => { f x with pc := c } := by
  simp [goto, upd]

/-- What holds of the new contents of a slot and of all slots as they were. -/
theorem State.upd_all {P : Fin N → Proc N H → Prop} (hself : P p (f (s.proc p)))
    (hother : ∀ q, P q (s.proc q)) (q : Fin N) : P q ((s.upd p f).proc q) :=
  update_one (motive := P) q hself fun q _ => hother q

theorem State.ne_of_running (hp : (s.proc p).state = .RUNNING) (q : Fin N)
    (hq : (s.proc q).state ≠ .RUNNING) : q ≠ p := by
  intro hqp
  exact hq (hqp ▸ hp)

theorem locking_eq_some (h : locking s q r = some o) : (s.proc q).lock = none ∧ r = some o :=
  Option.ite_none_right_eq_some.mp h

theorem atSlot_eq_some (h : atSlot k g r = some o) :
    (∃ q : Fin N, q.val = k ∧ g q = some o) ∨ (N ≤ k ∧ r = some o) := by
  unfold atSlot at h
  split at h
  · next hk => exact .inl ⟨⟨k, hk⟩, rfl, h⟩
  · next hk => exact .inr ⟨Nat.le_of_not_lt hk, h⟩

end Basic

/-- The slot that a process in `fork` has allocated. -/
def PC.forks : PC N → Option (Fin N)
  | forkParent np | forkRunnable np => some np
  | _ => none

/-- Will go on with `p->lock` held when it is run. -/
def Switch.resumes : Switch N → Bool
  | yielded | slept | forkret => true
  | _ => false

/-- **Moves**: all that a step of the process `p` on hart `h` can do, with its
    label, the state it leads to, and whether it ends in `swtch`. -/
inductive Move (h : Fin H) (p : Fin N) (s : State N H) : Event N H → State N H → Bool → Prop where
  | yieldLock : (s.proc p).switch = .no → (s.proc p).lock = none → (s.proc p).pc.holdsWait = false →
      Move h p s .tau (s.upd p fun x => { x with lock := some h, switch := .yielding }) false
  | sleepLock (n : Nat) : (s.proc p).switch = .no → (s.proc p).lock = none → (s.proc p).pc = .run →
      Move h p s .tau
        (s.upd p fun x => { x with lock := some h, switch := .sleepLocked (.other n) }) false
  | waitLock (addr : Bool) : (s.proc p).switch = .no → (s.proc p).lock = none →
      (s.proc p).pc = .waitSleep addr →
      Move h p s .tau (s.upd p fun x => { x with lock := some h, switch := .sleepLocked (.proc p) })
        false
  | sleepUnlock (c : Chan N) : (s.proc p).switch = .sleepLocked c →
      (∀ addr, (s.proc p).pc ≠ .waitSleep addr) →
      Move h p s .tau (s.upd p fun x => { x with switch := .sleepUnlocked c }) false
  | waitUnlock (c : Chan N) (addr : Bool) : (s.proc p).switch = .sleepLocked c →
      (s.proc p).pc = .waitSleep addr →
      Move h p s .tau
        { s.upd p fun x => { x with pc := .waitAcquire addr, switch := .sleepUnlocked c } with
          wait_lock := none } false
  | yield : (s.proc p).switch = .yielding →
      Move h p s .tau (s.upd p fun x => { x with state := .RUNNABLE, switch := .yielded }) true
  | sleep (c : Chan N) : (s.proc p).switch = .sleepUnlocked c →
      Move h p s .tau
        (s.upd p fun x => { x with chan := some c, state := .SLEEPING, switch := .slept }) true
  | resume : (s.proc p).switch.resumes = true → (s.proc p).switch ≠ .slept →
      Move h p s .tau (s.upd p fun x => { x with lock := none, switch := .no }) false
  | woken : (s.proc p).switch = .slept →
      Move h p s .tau (s.upd p fun x => { x with chan := none, lock := none, switch := .no }) false
  /-- To another point outside of the sections of `wait_lock`. -/
  | goto (c : PC N) : (s.proc p).switch = .no → (s.proc p).pc.holdsWait = false →
      c.holdsWait = false → c.forks = none → (∀ status, c = .exitAcquire status → p ≠ s.initproc) →
      Move h p s .tau (s.goto p c) false
  | trap : (s.proc p).switch = .no → (s.proc p).pc = .run →
      Move h p s (.trapped p) (s.upd p fun x => { x with killed := true }) false
  | alloc (k : Nat) (q : Fin N) : (s.proc p).switch = .no → (s.proc p).pc = .forkAlloc k →
      (s.proc q).lock = none → (s.proc q).state = .UNUSED →
      Move h p s (.alloc p q)
        ((s.allocpid.upd q fun x => x.allocproc s.nextpid).goto p (.forkParent q)) false
  | unalloc (k : Nat) (q : Fin N) : (s.proc p).switch = .no → (s.proc p).pc = .forkAlloc k →
      (s.proc q).lock = none → (s.proc q).state = .UNUSED →
      Move h p s .tau
        ((s.allocpid.upd q fun x => (x.allocproc s.nextpid).freeproc).goto p .run) false
  | parent (np : Fin N) : (s.proc p).switch = .no → (s.proc p).pc = .forkParent np →
      s.wait_lock = none →
      Move h p s .tau
        ((s.upd np fun x => { x with parent := some p }).goto p (.forkRunnable np)) false
  | start (np : Fin N) : (s.proc p).switch = .no → (s.proc p).pc = .forkRunnable np →
      (s.proc np).lock = none →
      Move h p s .tau ((s.upd np fun x => { x with state := .RUNNABLE }).goto p .run) false
  | exitAcquire (status : Int) : (s.proc p).switch = .no → (s.proc p).pc = .exitAcquire status →
      s.wait_lock = none →
      Move h p s .tau { s.goto p (.exitReparent status 0) with wait_lock := some p } false
  | reparent (status : Int) (q : Fin N) : (s.proc p).switch = .no →
      (s.proc p).pc = .exitReparent status q → (s.proc q).parent = some p →
      Move h p s .tau
        ((s.upd q fun x => { x with parent := some s.initproc }).goto p (.exitWakeInit status q 0))
          false
  | reparentNext (status : Int) (q : Fin N) : (s.proc p).switch = .no →
      (s.proc p).pc = .exitReparent status q → (s.proc q).parent ≠ some p →
      Move h p s .tau (s.goto p (.exitReparent status (q + 1))) false
  | reparented (status : Int) (k : Nat) : (s.proc p).switch = .no →
      (s.proc p).pc = .exitReparent status k → N ≤ k →
      Move h p s .tau (s.goto p (.exitWakeParent status (s.proc p).parent 0)) false
  | wakeInit (status : Int) (k : Nat) (q : Fin N) : (s.proc p).switch = .no →
      (s.proc p).pc = .exitWakeInit status k q → q ≠ p → (s.proc q).lock = none →
      Move h p s (.wakeup q)
        ((s.wake (some (.proc s.initproc)) q).goto p (.exitWakeInit status k (q + 1))) false
  | wakeInitSelf (status : Int) (k : Nat) : (s.proc p).switch = .no →
      (s.proc p).pc = .exitWakeInit status k p →
      Move h p s .tau (s.goto p (.exitWakeInit status k (p + 1))) false
  | wokenInit (status : Int) (k j : Nat) : (s.proc p).switch = .no →
      (s.proc p).pc = .exitWakeInit status k j → N ≤ j →
      Move h p s .tau (s.goto p (.exitReparent status (k + 1))) false
  | wakeParent (status : Int) (parent : Option (Fin N)) (q : Fin N) : (s.proc p).switch = .no →
      (s.proc p).pc = .exitWakeParent status parent q → q ≠ p → (s.proc q).lock = none →
      Move h p s (.wakeup q)
        ((s.wake (parent.map .proc) q).goto p (.exitWakeParent status parent (q + 1))) false
  | wakeParentSelf (status : Int) (parent : Option (Fin N)) : (s.proc p).switch = .no →
      (s.proc p).pc = .exitWakeParent status parent p →
      Move h p s .tau (s.goto p (.exitWakeParent status parent (p + 1))) false
  | wokenParent (status : Int) (parent : Option (Fin N)) (j : Nat) : (s.proc p).switch = .no →
      (s.proc p).pc = .exitWakeParent status parent j → N ≤ j →
      Move h p s .tau (s.goto p (.exitZombie status)) false
  | zombie (status : Int) : (s.proc p).switch = .no → (s.proc p).pc = .exitZombie status →
      (s.proc p).lock = none →
      Move h p s (.exited p status)
        { s.upd p fun x => { x with
            lock := some h, xstate := status, state := .ZOMBIE, pc := .run } with
          wait_lock := none } true
  | waitAcquire (addr : Bool) : (s.proc p).switch = .no → (s.proc p).pc = .waitAcquire addr →
      s.wait_lock = none →
      Move h p s .tau { s.goto p (.waitScan addr 0 false) with wait_lock := some p } false
  | scan (addr : Bool) (q : Fin N) (havekids havekids' : Bool) : (s.proc p).switch = .no →
      (s.proc p).pc = .waitScan addr q havekids →
      ((s.proc q).parent = some p → (s.proc q).state ≠ .ZOMBIE) →
      Move h p s .tau (s.goto p (.waitScan addr (q + 1) havekids')) false
  | free (addr : Bool) (q : Fin N) (havekids : Bool) : (s.proc p).switch = .no →
      (s.proc p).pc = .waitScan addr q havekids → (s.proc q).parent = some p →
      (s.proc q).lock = none → (s.proc q).state = .ZOMBIE →
      Move h p s (.waited p q (s.proc q).pid (if addr then some (s.proc q).xstate else none))
        { (s.upd q Proc.freeproc).goto p .run with wait_lock := none } false
  | waitFail (addr : Bool) (k : Nat) (havekids : Bool) : (s.proc p).switch = .no →
      (s.proc p).pc = .waitScan addr k havekids →
      Move h p s .tau { s.goto p .run with wait_lock := none } false
  | scanned (addr : Bool) (k : Nat) (havekids : Bool) : (s.proc p).switch = .no →
      (s.proc p).pc = .waitScan addr k havekids → N ≤ k →
      Move h p s .tau (s.goto p (.waitSleep addr)) false
  | kill (pid : BitVec 32) (q : Fin N) : (s.proc p).switch = .no → (s.proc p).pc = .kill pid q →
      (s.proc q).lock = none → (s.proc q).pid = pid →
      Move h p s (.killed p pid q)
        ((s.upd q fun x => { x with
          killed := true, state := if x.state = .SLEEPING then .RUNNABLE
            else x.state }).goto p .run) false

section Moves

variable {s s' : State N H} {h : Fin H} {p : Fin N} {sw : Bool} {e : Event N H} {d : Choice}
  {ok : Bool}

/-- `yield`, `sleep`, `forkret`. -/
theorem switchStep_move (hstep : switchStep p s (s.proc p).switch = some (e, s', sw)) :
    Move h p s e s' sw := by
  generalize hw : (s.proc p).switch = w at hstep
  cases w with
  | no => cases hstep
  | yielding =>
    cases hstep
    exact .yield hw
  | sleepLocked c =>
    simp only [switchStep] at hstep
    split at hstep
    · next addr hpc =>
      cases hstep
      exact .waitUnlock c addr hw hpc
    · next hpc =>
      cases hstep
      exact .sleepUnlock c hw hpc
  | sleepUnlocked c =>
    cases hstep
    exact .sleep c hw
  | slept =>
    cases hstep
    exact .woken hw
  | yielded | forkret =>
    cases hstep
    exact .resume (by rw [hw]; rfl) (by rw [hw]; nofun)

section

variable (hsw : (s.proc p).switch = .no)
include hsw

theorem callStep_move (hstep : callStep h p s d = some (e, s', sw))
    (hpc : (s.proc p).pc = .run) : Move h p s e s' sw := by
  have hout : (s.proc p).pc.holdsWait = false := by rw [hpc]; rfl
  cases d with
  | fork | wait addr | kill pid =>
    cases hstep
    exact .goto _ hsw hout rfl rfl nofun
  | exit status =>
    obtain ⟨hinit, hstep⟩ := Option.ite_none_left_eq_some.mp hstep
    cases hstep
    exact .goto _ hsw hout rfl rfl fun _ _ => hinit
  | sleep n =>
    obtain ⟨hlock, hstep⟩ := locking_eq_some hstep
    cases hstep
    exact .sleepLock n hsw hlock hpc
  | trap =>
    cases hstep
    exact .trap hsw hpc
  | next ok | yield => cases hstep

theorem forkStep_move (hstep : forkStep p ok s (s.proc p).pc = some (e, s', sw)) :
    Move h p s e s' sw := by
  generalize hpc : (s.proc p).pc = c at hstep
  cases c with
  | forkAlloc k =>
    have hout : (s.proc p).pc.holdsWait = false := by rw [hpc]; rfl
    simp only [forkStep] at hstep
    rcases atSlot_eq_some hstep with ⟨q, -, hq⟩ | ⟨-, hq⟩
    · obtain ⟨hlock, hq⟩ := locking_eq_some hq
      split at hq
      · next hu =>
        split at hq
        · cases hq
          exact .alloc k q hsw hpc hlock hu
        · cases hq
          exact .unalloc k q hsw hpc hlock hu
      · cases hq
        exact .goto _ hsw hout rfl rfl nofun
    · cases hq
      exact .goto _ hsw hout rfl rfl nofun
  | forkParent np =>
    obtain ⟨hfree, hstep⟩ := Option.ite_none_right_eq_some.mp hstep
    cases hstep
    exact .parent np hsw hpc hfree
  | forkRunnable np =>
    obtain ⟨hlock, hstep⟩ := locking_eq_some hstep
    cases hstep
    exact .start np hsw hpc hlock
  | _ => cases hstep

theorem exitStep_move (hstep : exitStep h p s (s.proc p).pc = some (e, s', sw)) :
    Move h p s e s' sw := by
  generalize hpc : (s.proc p).pc = c at hstep
  cases c with
  | exitAcquire status =>
    obtain ⟨hfree, hstep⟩ := Option.ite_none_right_eq_some.mp hstep
    cases hstep
    exact .exitAcquire status hsw hpc hfree
  | exitReparent status k =>
    simp only [exitStep] at hstep
    rcases atSlot_eq_some hstep with ⟨q, rfl, hq⟩ | ⟨hk, hq⟩
    · split at hq
      · next hparent =>
        cases hq
        exact .reparent status q hsw hpc hparent
      · next hparent =>
        cases hq
        exact .reparentNext status q hsw hpc hparent
    · cases hq
      exact .reparented status k hsw hpc hk
  | exitWakeInit status k j =>
    simp only [exitStep, wakeup] at hstep
    rcases atSlot_eq_some hstep with ⟨q, rfl, hq⟩ | ⟨hj, hq⟩
    · split at hq
      · next hqp =>
        subst hqp
        cases hq
        exact .wakeInitSelf status k hsw hpc
      · next hqp =>
        obtain ⟨hlock, hq⟩ := locking_eq_some hq
        cases hq
        exact .wakeInit status k q hsw hpc hqp hlock
    · cases hq
      exact .wokenInit status k j hsw hpc hj
  | exitWakeParent status parent j =>
    simp only [exitStep, wakeup] at hstep
    rcases atSlot_eq_some hstep with ⟨q, rfl, hq⟩ | ⟨hj, hq⟩
    · split at hq
      · next hqp =>
        subst hqp
        cases hq
        exact .wakeParentSelf status parent hsw hpc
      · next hqp =>
        obtain ⟨hlock, hq⟩ := locking_eq_some hq
        cases hq
        exact .wakeParent status parent q hsw hpc hqp hlock
    · cases hq
      exact .wokenParent status parent j hsw hpc hj
  | exitZombie status =>
    obtain ⟨hlock, hstep⟩ := locking_eq_some hstep
    cases hstep
    exact .zombie status hsw hpc hlock
  | _ => cases hstep

theorem waitStep_move (hstep : waitStep h p ok s (s.proc p).pc = some (e, s', sw)) :
    Move h p s e s' sw := by
  generalize hpc : (s.proc p).pc = c at hstep
  cases c with
  | waitAcquire addr =>
    obtain ⟨hfree, hstep⟩ := Option.ite_none_right_eq_some.mp hstep
    cases hstep
    exact .waitAcquire addr hsw hpc hfree
  | waitScan addr k havekids =>
    simp only [waitStep] at hstep
    rcases atSlot_eq_some hstep with ⟨q, rfl, hq⟩ | ⟨hk, hq⟩
    · split at hq
      · next hparent =>
        obtain ⟨hlock, hq⟩ := locking_eq_some hq
        split at hq
        · next hz =>
          split at hq
          · cases hq
            exact .waitFail addr q havekids hsw hpc
          · cases hq
            exact .free addr q havekids hsw hpc hparent hlock hz
        · next hz =>
          cases hq
          exact .scan addr q havekids true hsw hpc fun _ => hz
      · next hparent =>
        cases hq
        exact .scan addr q havekids havekids hsw hpc fun hp => absurd hp hparent
    · split at hq
      · cases hq
        exact .waitFail addr k havekids hsw hpc
      · cases hq
        exact .scanned addr k havekids hsw hpc hk
  | waitSleep addr =>
    obtain ⟨hlock, hstep⟩ := locking_eq_some hstep
    cases hstep
    exact .waitLock addr hsw hlock hpc
  | _ => cases hstep

theorem killStep_move (hstep : killStep p s (s.proc p).pc = some (e, s', sw)) :
    Move h p s e s' sw := by
  generalize hpc : (s.proc p).pc = c at hstep
  cases c with
  | kill pid k =>
    have hout : (s.proc p).pc.holdsWait = false := by rw [hpc]; rfl
    simp only [killStep] at hstep
    rcases atSlot_eq_some hstep with ⟨q, rfl, hq⟩ | ⟨-, hq⟩
    · obtain ⟨hlock, hq⟩ := locking_eq_some hq
      split at hq
      · next hpid =>
        cases hq
        exact .kill pid q hsw hpc hlock hpid
      · cases hq
        exact .goto _ hsw hout rfl rfl nofun
    · cases hq
      exact .goto _ hsw hout rfl rfl nofun
  | _ => cases hstep

end

/-- **Inversion**: every step of a process is one of the moves. -/
theorem procStep_move (hstep : procStep h p d s = some (e, s', sw)) : Move h p s e s' sw := by
  unfold procStep at hstep
  dsimp only at hstep
  split at hstep
  · exact switchStep_move hstep
  · next hsw =>
    have hsw : (s.proc p).switch = .no := not_not.mp hsw
    split at hstep
    · split at hstep
      · cases hstep
      · next hout =>
        obtain ⟨hlock, hstep⟩ := locking_eq_some hstep
        cases hstep
        exact .yieldLock hsw hlock (Bool.eq_false_of_not_eq_true hout)
    · next hpc => exact callStep_move hsw hstep hpc
    · split at hstep
      · exact forkStep_move hsw hstep
      · exact forkStep_move hsw hstep
      · exact forkStep_move hsw hstep
      · exact exitStep_move hsw hstep
      · exact exitStep_move hsw hstep
      · exact exitStep_move hsw hstep
      · exact exitStep_move hsw hstep
      · exact exitStep_move hsw hstep
      · exact waitStep_move hsw hstep
      · exact waitStep_move hsw hstep
      · exact waitStep_move hsw hstep
      · exact killStep_move hsw hstep
      · cases hstep
    · cases hstep

end Moves

/-- What a step of process `p`, on hart `h` and with label `e`, does to its own
    slot; the flag says whether the step ends in `swtch`. -/
inductive Own (h : Fin H) (p : Fin N) (e : Event N H) (x y : Proc N H) : Bool → Prop where
  | keep : y.state = x.state → y.lock = x.lock → y.switch = x.switch → Own h p e x y false
  | acquire : x.lock = none → x.switch = .no → y.state = x.state → y.lock = some h →
      y.switch ≠ .no → y.switch.resumes = false → Own h p e x y false
  | inside : x.switch ≠ .no → y.state = x.state → y.lock = x.lock → y.switch ≠ .no →
      y.switch.resumes = false → Own h p e x y false
  | release : x.switch ≠ .no → y.state = x.state → y.lock = none → y.switch = .no →
      Own h p e x y false
  | swtch : e = .tau → x.switch ≠ .no → (y.state = .RUNNABLE ∨ y.state = .SLEEPING) →
      y.lock = x.lock → y.switch.resumes = true → Own h p e x y true
  | exit (status : Int) : e = .exited p status → x.lock = none → x.switch = .no →
      y.state = .ZOMBIE → y.lock = some h → y.switch = .no → Own h p e x y true

/-- The label of a step that wakes the process in slot `q` up. -/
def Event.wakes (q : Fin N) : Event N H → Bool
  | .wakeup r | .killed _ _ r => r = q
  | _ => false

/-- What a step with label `e` does to the slot `q` of another process. -/
inductive Other (e : Event N H) (q : Fin N) (x y : Proc N H) : Prop where
  | keep : y.state = x.state → y.lock = x.lock → y.switch = x.switch → y.pc = x.pc → Other e q x y
  | alloc (p : Fin N) : e = .alloc p q → x.lock = none → x.state = .UNUSED → y.state = .USED →
      y.lock = none → y.switch = .forkret → y.pc = .run → Other e q x y
  | unalloc : x.lock = none → x.state = .UNUSED → y.state = .UNUSED → y.lock = none →
      y.switch = .forkret → y.pc = .run → Other e q x y
  | start : e = .tau → x.lock = none → x.state = .USED → y.state = .RUNNABLE → y.lock = none →
      y.switch = x.switch → y.pc = x.pc → Other e q x y
  | wake : e.wakes q = true → x.lock = none → x.state = .SLEEPING → y.state = .RUNNABLE →
      y.lock = none → y.switch = x.switch → y.pc = x.pc → Other e q x y
  | free (p : Fin N) (pid : BitVec 32) (status : Option Int) : e = .waited p q pid status →
      x.lock = none → x.state = .ZOMBIE → y.state = .UNUSED → y.lock = none →
      y.switch = x.switch → y.pc = x.pc → Other e q x y

/-- **Effect** of a step of process `p` on hart `h` with label `e`. -/
structure Effect (h : Fin H) (p : Fin N) (e : Event N H) (s s' : State N H) (sw : Bool) : Prop where
  cpu : s'.cpu = s.cpu
  own : Own h p e (s.proc p) (s'.proc p) sw
  other : ∀ q, q ≠ p → Other e q (s.proc q) (s'.proc q)
  /-- A slot that `fork` goes on with has just been allocated, or was its own. -/
  forks : ∀ q, (s'.proc p).pc.forks = some q →
    (s.proc p).pc.forks = some q ∨ ((s.proc q).state = .UNUSED ∧ (s'.proc q).state = .USED)
  /-- A USED process is started by the `fork` that made it. -/
  used : ∀ q, (s.proc q).state = .USED → (s'.proc q).state = .USED ∨
    ((s.proc p).pc.forks = some q ∧ (s'.proc p).pc.forks = none)

section Effects

variable {s s' : State N H} {h : Fin H} {p q : Fin N} {c : PC N} {sw : Bool} {e : Event N H}
  {f : Proc N H → Proc N H}

/-- A change of the own slot. -/
theorem Effect.self (hcpu : s'.cpu = s.cpu) (hproc : s'.proc = (s.upd p f).proc)
    (hown : Own h p e (s.proc p) (f (s.proc p)) sw) (hp : (s.proc p).state = .RUNNING)
    (hforks : ∀ q, (f (s.proc p)).pc.forks = some q → (s.proc p).pc.forks = some q) :
    Effect h p e s s' sw where
  cpu := hcpu
  own := by rw [hproc, upd_self]; exact hown
  other := by
    intro q hq
    rw [hproc, upd_ne hq]
    exact .keep rfl rfl rfl rfl
  forks := by
    intro q hq
    rw [hproc, upd_self] at hq
    exact .inl (hforks q hq)
  used := by
    intro q hq
    left
    rw [hproc, upd_ne (ne_of_running hp q (by rw [hq]; nofun)), hq]

/-- The process goes on to another program point. -/
theorem Effect.goto (hcpu : s'.cpu = s.cpu) (hproc : s'.proc = (s.goto p c).proc)
    (hp : (s.proc p).state = .RUNNING) (hforks : c.forks = none) : Effect h p e s s' false := by
  refine .self hcpu hproc (.keep rfl rfl rfl) hp ?_
  intro q hq
  rw [hforks] at hq
  cases hq

/-- A change of another slot, after which the process goes on. -/
theorem Effect.both (hcpu : s'.cpu = s.cpu) (hproc : s'.proc = ((s.upd q f).goto p c).proc)
    (hqp : q ≠ p) (hother : Other e q (s.proc q) (f (s.proc q)))
    (hforks : ∀ r, c.forks = some r → (s.proc p).pc.forks = some r ∨
      (r = q ∧ (s.proc q).state = .UNUSED ∧ (f (s.proc q)).state = .USED))
    (hused : (s.proc q).state = .USED → (f (s.proc q)).state = .USED ∨
      ((s.proc p).pc.forks = some q ∧ c.forks = none))
    (hp : (s.proc p).state = .RUNNING) : Effect h p e s s' false where
  cpu := hcpu
  own := by
    rw [hproc, goto_self, upd_ne hqp.symm]
    exact .keep rfl rfl rfl
  other := by
    intro r hr
    rw [hproc, goto_ne hr]
    exact upd_all (P := fun r => Other e r (s.proc r)) hother (fun _ => .keep rfl rfl rfl rfl) r
  forks := by
    intro r hr
    rw [hproc, goto_self, upd_ne hqp.symm] at hr
    rcases hforks r hr with hold | ⟨rfl, hu, hs⟩
    · exact .inl hold
    · refine .inr ⟨hu, ?_⟩
      rw [hproc, goto_ne hqp, upd_self]
      exact hs
  used := by
    intro r hr
    rw [hproc, goto_self, goto_ne (ne_of_running hp r (by rw [hr]; nofun)), upd_ne hqp.symm]
    by_cases hrq : r = q
    · subst hrq
      rw [upd_self]
      exact hused hr
    · rw [upd_ne hrq]
      exact .inl hr

/-- The section of a `wakeup` at another slot. -/
theorem other_wake {d : Option (Chan N)} (hlock : (s.proc q).lock = none) :
    ∃ f : Proc N H → Proc N H, s.wake d q = s.upd q f ∧
      Other (.wakeup q) q (s.proc q) (f (s.proc q)) ∧
      ((s.proc q).state = .USED → (f (s.proc q)).state = .USED) := by
  unfold wake
  split
  · next hs =>
    have hs : (s.proc q).state = .SLEEPING ∧ (s.proc q).chan = d := of_decide_eq_true hs
    refine ⟨fun x => { x with state := .RUNNABLE }, rfl,
      .wake (by simp [Event.wakes]) hlock hs.1 rfl hlock rfl rfl, ?_⟩
    intro hu
    rw [hs.1] at hu
    cases hu
  · refine ⟨id, ?_, .keep rfl rfl rfl rfl, id⟩
    simp [upd]

/-- **What a move does** to the slots, for the scheduler. -/
theorem Move.effect (hmove : Move h p s e s' sw) (hp : (s.proc p).state = .RUNNING)
    (hfork : ∀ q, (s.proc p).pc.forks = some q → (s.proc q).state = .USED) :
    Effect h p e s s' sw := by
  have hne := ne_of_running hp
  cases hmove with
  | yieldLock hsw hlock | sleepLock _ hsw hlock | waitLock _ hsw hlock =>
    exact .self rfl rfl (.acquire hlock hsw rfl rfl nofun rfl) hp fun _ hq => hq
  | sleepUnlock c hw =>
    exact .self (f := fun x => { x with switch := .sleepUnlocked c }) rfl rfl
      (.inside (by rw [hw]; nofun) rfl rfl nofun rfl) hp fun _ hq => hq
  | waitUnlock c addr hw =>
    exact .self (f := fun x => { x with pc := .waitAcquire addr, switch := .sleepUnlocked c })
      rfl rfl (.inside (by rw [hw]; nofun) rfl rfl nofun rfl) hp nofun
  | yield hw =>
    exact .self rfl rfl (.swtch rfl (by rw [hw]; nofun) (.inl rfl) rfl rfl) hp fun _ hq => hq
  | sleep c hw =>
    exact .self rfl rfl (.swtch rfl (by rw [hw]; nofun) (.inr rfl) rfl rfl) hp fun _ hq => hq
  | resume hw =>
    have hno : (s.proc p).switch ≠ .no := by
      intro hno
      rw [hno] at hw
      cases hw
    exact .self rfl rfl (.release hno rfl rfl rfl) hp fun _ hq => hq
  | woken hw => exact .self rfl rfl (.release (by rw [hw]; nofun) rfl rfl rfl) hp fun _ hq => hq
  | goto c _ _ _ hforks => exact .goto rfl rfl hp hforks
  | trap => exact .self rfl rfl (.keep rfl rfl rfl) hp fun _ hq => hq
  | alloc k q _ _ hlock hu =>
    refine .both (q := q) (f := fun x => x.allocproc s.nextpid) rfl rfl (hne q (by rw [hu]; nofun))
      (.alloc p rfl hlock hu rfl hlock rfl rfl) ?_ (fun _ => .inl rfl) hp
    intro r hr
    exact .inr ⟨(Option.some.inj hr).symm, hu, rfl⟩
  | unalloc k q _ _ hlock hu =>
    refine .both (q := q) (f := fun x => (x.allocproc s.nextpid).freeproc) rfl rfl
      (hne q (by rw [hu]; nofun)) (.unalloc hlock hu rfl hlock rfl rfl) nofun ?_ hp
    intro hused
    rw [hu] at hused
    cases hused
  | parent np _ hpc =>
    have hu := hfork np (by rw [hpc]; rfl)
    refine .both (q := np) (f := fun x => { x with parent := some p }) rfl rfl
      (hne np (by rw [hu]; nofun)) (.keep rfl rfl rfl rfl) ?_ (fun hu => .inl hu) hp
    intro r hr
    rw [hpc]
    exact .inl hr
  | start np _ hpc hlock =>
    have hu := hfork np (by rw [hpc]; rfl)
    refine .both (q := np) (f := fun x => { x with state := .RUNNABLE }) rfl rfl
      (hne np (by rw [hu]; nofun)) (.start rfl hlock hu rfl hlock rfl rfl) nofun ?_ hp
    intro _
    exact .inr ⟨by rw [hpc]; rfl, rfl⟩
  | reparent status q _ _ _ =>
    by_cases hqp : q = p
    · subst hqp
      rw [upd_goto]
      exact .self rfl rfl (.keep rfl rfl rfl) hp nofun
    · exact .both (q := q) (f := fun x => { x with parent := some s.initproc }) rfl rfl hqp
        (.keep rfl rfl rfl rfl) nofun (fun hu => .inl hu) hp
  | wakeInit _ _ q _ _ hqp hlock =>
    obtain ⟨f, hf, hother, hused⟩ := other_wake (s := s) (d := some (.proc s.initproc)) hlock
    rw [hf]
    exact .both rfl rfl hqp hother nofun (fun hu => .inl (hused hu)) hp
  | wakeParent _ parent q _ _ hqp hlock =>
    obtain ⟨f, hf, hother, hused⟩ := other_wake (s := s) (d := parent.map .proc) hlock
    rw [hf]
    exact .both rfl rfl hqp hother nofun (fun hu => .inl (hused hu)) hp
  | exitAcquire status => exact .goto (c := .exitReparent status 0) rfl rfl hp rfl
  | waitAcquire addr => exact .goto (c := .waitScan addr 0 false) rfl rfl hp rfl
  | waitFail => exact .goto (c := .run) rfl rfl hp rfl
  | reparentNext | reparented | wakeInitSelf | wokenInit | wakeParentSelf | wokenParent | scan
  | scanned => exact .goto rfl rfl hp rfl
  | zombie status hsw _ hlock =>
    exact .self
      (f := fun x => { x with lock := some h, xstate := status, state := .ZOMBIE, pc := .run }) rfl
      rfl (.exit status rfl hlock hsw rfl rfl hsw) hp nofun
  | free addr q _ _ _ _ hlock hz =>
    refine .both (q := q) (f := Proc.freeproc) (c := .run) rfl rfl (hne q (by rw [hz]; nofun))
      (.free p _ _ rfl hlock hz rfl hlock rfl rfl) nofun ?_ hp
    intro hu
    rw [hz] at hu
    cases hu
  | kill pid q _ _ hlock _ =>
    by_cases hqp : q = p
    · -- a process that kills itself is RUNNING
      subst hqp
      rw [upd_goto]
      exact .self rfl rfl (.keep (by simp [hp]) rfl rfl) hp nofun
    · refine .both (q := q) (f := fun x => { x with
        killed := true, state := if x.state = .SLEEPING then .RUNNABLE else x.state }) rfl rfl hqp
        ?_ nofun ?_ hp
      · by_cases hs : (s.proc q).state = .SLEEPING
        · exact .wake (by simp [Event.wakes]) hlock hs (by simp [hs]) hlock rfl rfl
        · exact .keep (by simp [hs]) rfl rfl rfl
      · intro hu
        left
        simp [hu]

end Effects

/-! ## 2. Invariant -/

/-- Hart `c` holds the lock of slot `q`, whose process is `x`. -/
def Cpu.holdsLock (q : Fin N) (x : Proc N H) (c : Cpu N) : Bool :=
  match c.pc with
  | .scheduler _ => false
  | .test p | .switched p => p = q
  | .running p => p = q ∧ x.switch ≠ .no

/-- What a hart knows of the process it is concerned with. -/
def Cpu.Ok (proc : Fin N → Proc N H) (c : Cpu N) : Prop :=
  match c.pc with
  | .scheduler _ | .test _ => c.proc = none
  | .running p => c.proc = some p ∧ (proc p).state = .RUNNING
  | .switched p => c.proc = some p ∧
      ((proc p).state = .RUNNABLE ∨ (proc p).state = .SLEEPING ∨ (proc p).state = .ZOMBIE)

/-- How far a thread is in giving up its hart fits its state. -/
def Proc.SwitchOk (x : Proc N H) : Prop :=
  match x.state with
  | .USED | .SLEEPING | .RUNNABLE => x.switch.resumes = true
  | .ZOMBIE => x.switch = .no
  | .UNUSED => x.switch = .no ∨ x.switch.resumes = true
  | .RUNNING => True

structure Sched (s : State N H) : Prop where
  lock : ∀ q, Guards (Cpu.holdsLock q (s.proc q)) (s.proc q).lock s.cpu
  cpu : ∀ h, (s.cpu h).Ok s.proc
  running : ∀ q, (s.proc q).state = .RUNNING → ∃ h, (s.cpu h).pc = .running q
  unique : ∀ h h' q, (s.cpu h).proc = some q → (s.cpu h').proc = some q → h = h'
  switch : ∀ q, (s.proc q).SwitchOk
  /-- The slot that a process in `fork` has allocated is USED, and its own. -/
  forks : ∀ p q, (s.proc p).pc.forks = some q → (s.proc q).state = .USED
  forker : ∀ p p' q, (s.proc p).pc.forks = some q → (s.proc p').pc.forks = some q → p = p'

theorem sched_init (hN : 0 < N) : Sched (init hN : State N H) where
  lock := by intro q h; simp [init, holdsLock]
  cpu := by intro h; simp [init, Cpu.Ok]
  running := by
    intro q hq
    simp only [init] at hq
    split at hq <;> cases hq
  unique := by intro h h' q hq; simp [init] at hq
  switch := by
    intro q
    by_cases hq : q = ⟨0, hN⟩ <;> simp [init, Proc.SwitchOk, hq, Switch.resumes]
  forks := by intro p q hq; simp [init, PC.forks] at hq
  forker := by intro p p' q hq; simp [init, PC.forks] at hq

section Preserved

variable {s s' : State N H} {h h' : Fin H} {p q : Fin N} {x y : Proc N H} {sw : Bool}
  {e : Event N H} {c : Cpu N}

namespace Other

section

variable {r : Fin N} (ho : Other e q x y)
include ho

theorem pc_forks (hy : y.pc.forks = some r) : x.pc.forks = some r := by
  cases ho with
  | keep _ _ _ hpc | start _ _ _ _ _ _ hpc | wake _ _ _ _ _ _ hpc | free _ _ _ _ _ _ _ _ _ hpc =>
    rwa [← hpc]
  | alloc _ _ _ _ _ _ _ hpc | unalloc _ _ _ _ _ hpc =>
    rw [hpc] at hy
    cases hy

theorem running (hy : y.state = .RUNNING) : x.state = .RUNNING := by
  cases ho with
  | keep hs => rwa [← hs]
  | alloc _ _ _ _ hs | unalloc _ _ hs | start _ _ _ hs | wake _ _ _ hs | free _ _ _ _ _ _ hs =>
    rw [hs] at hy
    cases hy

theorem switchOk (hx : x.SwitchOk) : y.SwitchOk := by
  unfold Proc.SwitchOk at hx ⊢
  cases ho with
  | keep hs _ hsw _ =>
    rw [hs, hsw]
    exact hx
  | alloc _ _ _ _ hs _ hsw _ =>
    rw [hs, hsw]
    rfl
  | unalloc _ _ hs _ hsw _ =>
    rw [hs, hsw]
    exact .inr rfl
  | start _ _ hx' hs _ hsw _ | wake _ _ hx' hs _ hsw _ =>
    rw [hs, hsw]
    rwa [hx'] at hx
  | free _ _ _ _ _ hx' hs _ hsw _ =>
    rw [hs, hsw]
    rw [hx'] at hx
    exact .inl hx

/-- The lock is not taken or released in between. -/
theorem lock : y.lock = x.lock := by
  cases ho with
  | keep _ hl _ _ => exact hl
  | alloc _ _ hx _ _ hl _ _ | unalloc hx _ _ hl _ _ | start _ hx _ _ hl _ _ | wake _ hx _ _ hl _ _
  | free _ _ _ _ hx _ _ hl _ _ => rw [hl, hx]

/-- A process that is on a hart keeps its state, or its lock was free. -/
theorem state : y.state = x.state ∨ (x.lock = none ∧ x.state ≠ .RUNNING) := by
  cases ho with
  | keep hs _ _ _ => exact .inl hs
  | alloc _ _ hx hs _ _ _ _ | unalloc hx hs _ _ _ _ | start _ hx hs _ _ _ _ | wake _ hx hs _ _ _ _
  | free _ _ _ _ hx hs _ _ _ _ => exact .inr ⟨hx, by rw [hs]; nofun⟩

theorem switch (hx : x.state = .RUNNING) : y.switch = x.switch := by
  cases ho with
  | keep _ _ hsw _ => exact hsw
  | alloc _ _ _ hs _ _ _ _ | unalloc _ hs _ _ _ _ | start _ _ hs _ _ _ _ | wake _ _ hs _ _ _ _
  | free _ _ _ _ _ hs _ _ _ _ =>
    rw [hx] at hs
    cases hs

end

end Other

/-- Which harts hold the lock of a slot does not depend on the process in it,
    unless one runs it. -/
theorem Cpu.holdsLock_congr (hc : c.pc = .running q → y.switch = x.switch) :
    c.holdsLock q y = c.holdsLock q x := by
  unfold holdsLock
  split
  · rfl
  · rfl
  · rfl
  · next r hr =>
    by_cases hrq : r = q
    · subst hrq
      rw [hc hr]
    · simp [hrq]

theorem Cpu.Ok.congr {proc proc' : Fin N → Proc N H} (hc : c.Ok proc)
    (hproc : ∀ r, c.proc = some r → (proc' r).state = (proc r).state) : c.Ok proc' := by
  unfold Cpu.Ok at hc ⊢
  split
  · next hk => rwa [hk] at hc
  · next hk => rwa [hk] at hc
  · next r hr =>
    rw [hr] at hc
    rwa [hproc r hc.1]
  · next r hr =>
    rw [hr] at hc
    rwa [hproc r hc.1]

section

variable {h' : Fin H} {c : Cpu N} {l : Option (Fin H)} {d : Option (Chan N)} {a : Action N H}
  (hs : Sched s)
include hs

theorem Sched.cpu_running (hp : (s.cpu h).pc = .running p) :
    (s.cpu h).proc = some p ∧ (s.proc p).state = .RUNNING := by
  have := hs.cpu h
  unfold Cpu.Ok at this
  rwa [hp] at this

/-- The harts that hold the lock of a slot that another process's step touches. -/
theorem Sched.other_lock (ho : Other e q (s.proc q) (s'.proc q)) :
    Guards (holdsLock q (s'.proc q)) (s'.proc q).lock s.cpu := by
  intro h
  rw [ho.lock, hs.lock q h, holdsLock_congr]
  intro hr
  exact (ho.switch (hs.cpu_running hr).2).symm

/-- A hart keeps its knowledge of a process that another one's step touches: the
    lock of a process that has switched to its scheduler is held. -/
theorem Sched.cpu_other (ho : ∀ r, (s.cpu h').proc = some r → Other e r (s.proc r) (s'.proc r)) :
    (s.cpu h').Ok s'.proc := by
  have hok := hs.cpu h'
  unfold Cpu.Ok at hok ⊢
  split
  · next hk => rwa [hk] at hok
  · next hk => rwa [hk] at hok
  · next r hr =>
    rw [hr] at hok
    refine ⟨hok.1, ?_⟩
    rcases (ho r hok.1).state with hst | ⟨-, hst⟩
    · rw [hst, hok.2]
    · exact absurd hok.2 hst
  · next r hr =>
    rw [hr] at hok
    refine ⟨hok.1, ?_⟩
    rcases (ho r hok.1).state with hst | ⟨hl, -⟩
    · rw [hst]
      exact hok.2
    · have := (hs.lock r).free hl h'
      simp [holdsLock, hr] at this

/-- The harts that hold the lock of the process that `h` runs, before and after a
    step of it; `c` is the hart after the step. -/
theorem Sched.own_lock (hp : (s.cpu h).pc = .running p) (hown : Own h p e (s.proc p) (s'.proc p) sw)
    (hc : c.pc = if sw then .switched p else .running p) :
    Guards (holdsLock p (s'.proc p)) (s'.proc p).lock (update s.cpu h c) := by
  -- no other hart runs p, so it is only the own program point that matters
  have hother : ∀ h', h' ≠ h →
      (s.cpu h').holdsLock p (s'.proc p) = (s.cpu h').holdsLock p (s.proc p) := by
    intro h' hh'
    apply holdsLock_congr
    intro hr
    exact absurd (hs.unique h' h p (hs.cpu_running hr).1 (hs.cpu_running hp).1) hh'
  have hself : (s.cpu h).holdsLock p (s.proc p) = ((s.proc p).switch ≠ .no : Bool) := by
    simp [holdsLock, hp]
  intro h'
  by_cases hh' : h' = h
  · subst hh'
    rw [update_self]
    have hold := hs.lock p h'
    rw [hself] at hold
    cases hown with
    | keep _ hl hsw => simp [holdsLock, hc, hl, hsw, hold]
    | acquire _ _ _ hl hsw _ => simp [holdsLock, hc, hl, hsw]
    | inside hx _ hl hsw _ => simp [holdsLock, hc, hl, hsw, hold, hx]
    | release _ _ hl hsw => simp [holdsLock, hc, hl, hsw]
    | swtch _ hx _ hl _ => simp [holdsLock, hc, hl, hold, hx]
    | exit _ _ _ _ _ hl _ => simp [holdsLock, hc, hl]
  · rw [update_of_ne hh', hother h' hh', ← hs.lock p h']
    have hold := hs.lock p h
    rw [hself] at hold
    cases hown with
    | keep _ hl _ | inside _ _ hl _ _ | swtch _ _ _ hl _ => rw [hl]
    | acquire hx _ _ hl _ _ | exit _ _ hx _ _ hl _ =>
      rw [hx, hl]
      simp [Ne.symm hh']
    | release hx _ hl _ =>
      rw [hl, hold.mpr (by simpa using hx)]
      simp [Ne.symm hh']

/-- **A step of a process** keeps the invariant; `c` is the hart after it. -/
theorem Sched.effect (hp : (s.cpu h).pc = .running p) (he : Effect h p e s s' sw)
    (hc : c.pc = if sw then .switched p else .running p) (hcp : c.proc = some p) :
    Sched (s'.setCpu h c) := by
  have hrun := hs.cpu_running hp
  have hproc := update_proj (g := Cpu.proc) (hcp.trans hrun.1.symm)
  have hcpu : (s'.setCpu h c).cpu = update s.cpu h c := by
    unfold setCpu
    rw [he.cpu]
  refine ⟨?_, ?_, ?_, ?_, ?_, ?_, ?_⟩
  · -- lock
    intro q
    rw [hcpu]
    change Guards (holdsLock q (s'.proc q)) (s'.proc q).lock _
    by_cases hq : q = p
    · subst hq
      exact hs.own_lock hp he.own hc
    · apply (hs.other_lock (he.other q hq)).keep
      have hpq : p ≠ q := Ne.symm hq
      cases sw <;> simp [holdsLock, hc, hp, hpq]
  · -- cpu
    intro h'
    rw [hcpu]
    change Cpu.Ok s'.proc _
    refine update_one (motive := fun _ => Cpu.Ok s'.proc) h' ?_ fun h' hh' => ?_
    · unfold Cpu.Ok
      rw [hc]
      cases he.own with
      | keep hst | acquire _ _ hst | inside _ hst | release _ hst =>
        exact ⟨hcp, hst.trans hrun.2⟩
      | swtch _ _ hst => exact ⟨hcp, hst.elim .inl (fun h => .inr (.inl h))⟩
      | exit _ _ _ _ hst => exact ⟨hcp, .inr (.inr hst)⟩
    · apply hs.cpu_other
      intro r hr
      apply he.other
      intro hrp
      exact hh' (hs.unique h' h p (hrp ▸ hr) hrun.1)
  · -- running
    intro q hq
    rw [hcpu]
    by_cases hqp : q = p
    · subst hqp
      refine ⟨h, ?_⟩
      rw [update_self, hc]
      change (s'.proc q).state = .RUNNING at hq
      cases he.own with
      | keep | acquire | inside | release => rfl
      | swtch _ _ hst => rcases hst with hst | hst <;> rw [hst] at hq <;> cases hq
      | exit _ _ _ _ hst => rw [hst] at hq; cases hq
    · obtain ⟨h', hh'⟩ := hs.running q ((he.other q hqp).running hq)
      refine ⟨h', ?_⟩
      have hne : h' ≠ h := by
        intro hne
        rw [hne, hp] at hh'
        exact hqp (CpuPC.running.inj hh').symm
      rw [update_of_ne hne]
      exact hh'
  · -- unique
    intro h1 h2 q
    rw [hcpu, hproc, hproc]
    exact hs.unique h1 h2 q
  · -- switch
    intro q
    change (s'.proc q).SwitchOk
    by_cases hqp : q = p
    · subst hqp
      unfold Proc.SwitchOk
      cases he.own with
      | keep hst | acquire _ _ hst | inside _ hst | release _ hst => simp [hst.trans hrun.2]
      | swtch _ _ hst _ hsw => rcases hst with hst | hst <;> simp [hst, hsw]
      | exit _ _ _ _ hst _ hsw => simp [hst, hsw]
    · exact (he.other q hqp).switchOk (hs.switch q)
  · -- forks
    intro r q hr
    change (s'.proc q).state = .USED
    change (s'.proc r).pc.forks = some q at hr
    by_cases hrp : r = p
    · subst hrp
      rcases he.forks q hr with hold | ⟨-, hnew⟩
      · rcases he.used q (hs.forks r q hold) with hu | ⟨-, hnone⟩
        · exact hu
        · rw [hnone] at hr
          cases hr
      · exact hnew
    · have hold := (he.other r hrp).pc_forks hr
      rcases he.used q (hs.forks r q hold) with hu | ⟨hf, -⟩
      · exact hu
      · exact absurd (hs.forker r p q hold hf) hrp
  · -- forker
    intro r1 r2 q h1 h2
    change (s'.proc r1).pc.forks = some q at h1
    change (s'.proc r2).pc.forks = some q at h2
    -- a slot allocated by this step was UNUSED, so no other fork can have it
    have hnew : ∀ r, r ≠ p → (s'.proc r).pc.forks = some q → (s'.proc p).pc.forks = some q →
        r = p := by
      intro r hrp hr hpf
      have hold := (he.other r hrp).pc_forks hr
      rcases he.forks q hpf with hp' | ⟨hu, -⟩
      · exact hs.forker r p q hold hp'
      · rw [hs.forks r q hold] at hu
        cases hu
    by_cases hr1 : r1 = p
    · by_cases hr2 : r2 = p
      · rw [hr1, hr2]
      · rw [hr1]
        exact (hnew r2 hr2 h2 (hr1 ▸ h1)).symm
    · by_cases hr2 : r2 = p
      · rw [hr2]
        exact hnew r1 hr1 h1 (hr2 ▸ h2)
      · exact hs.forker r1 r2 q ((he.other r1 hr1).pc_forks h1) ((he.other r2 hr2).pc_forks h2)

/-- The scheduler of `h` takes or releases a lock, with no process on the hart. -/
theorem Sched.relock
    (hproc : ∀ q, (s'.proc q).state = (s.proc q).state ∧ (s'.proc q).switch = (s.proc q).switch ∧
      (s'.proc q).pc = (s.proc q).pc)
    (hcpu : s'.cpu = update s.cpu h c) (hold : ∀ r, (s.cpu h).pc ≠ .running r)
    (hnone : c.proc = none) (hnew : ∀ r, c.pc ≠ .running r ∧ c.pc ≠ .switched r)
    (hlock : ∀ q, Guards (holdsLock q (s.proc q)) (s'.proc q).lock (update s.cpu h c)) :
    Sched s' where
  lock := by
    intro q h'
    rw [hcpu, hlock q h', holdsLock_congr]
    intro _
    exact (hproc q).2.1.symm
  cpu := by
    intro h'
    rw [hcpu]
    refine update_one (motive := fun _ => Cpu.Ok s'.proc) h' ?_ fun h' _ =>
      (hs.cpu h').congr fun r _ => (hproc r).1
    unfold Cpu.Ok
    split
    · exact hnone
    · exact hnone
    · next r hr => exact absurd hr (hnew r).1
    · next r hr => exact absurd hr (hnew r).2
  running := by
    intro q hq
    rw [(hproc q).1] at hq
    obtain ⟨h', hh'⟩ := hs.running q hq
    refine ⟨h', ?_⟩
    have hne : h' ≠ h := by
      intro hne
      exact hold q (hne ▸ hh')
    rw [hcpu, update_of_ne hne]
    exact hh'
  unique := by
    intro h1 h2 q hq1 hq2
    rw [hcpu] at hq1 hq2
    have hc : c.proc ≠ some q := by rw [hnone]; nofun
    exact hs.unique h1 h2 q (update_other (Cpu.proc · = some q) hq1 hc).2
      (update_other (Cpu.proc · = some q) hq2 hc).2
  switch := by
    intro q
    unfold Proc.SwitchOk
    rw [(hproc q).1, (hproc q).2.1]
    exact hs.switch q
  forks := by
    intro r q hr
    rw [(hproc r).2.2] at hr
    rw [(hproc q).1]
    exact hs.forks r q hr
  forker := by
    intro r1 r2 q h1 h2
    rw [(hproc r1).2.2] at h1
    rw [(hproc r2).2.2] at h2
    exact hs.forker r1 r2 q h1 h2

/-- The scheduler of `h` runs the process `p` whose lock it holds. -/
theorem Sched.dispatch (hp : (s.cpu h).pc = .test p) (hr : (s.proc p).state = .RUNNABLE) :
    Sched ((s.upd p fun x => { x with state := .RUNNING }).setCpu h ⟨some p, .running p⟩) := by
  have hl : (s.proc p).lock = some h := (hs.lock p h).mpr (by simp [holdsLock, hp])
  have hsw : (s.proc p).switch ≠ .no := by
    have := hs.switch p
    unfold Proc.SwitchOk at this
    rw [hr] at this
    intro hno
    rw [hno] at this
    cases this
  -- no other hart is concerned with p
  have hfree : ∀ h', h' ≠ h → (s.cpu h').proc ≠ some p := by
    intro h' hh' hproc
    have hok := hs.cpu h'
    unfold Cpu.Ok at hok
    split at hok
    · rw [hok] at hproc
      cases hproc
    · rw [hok] at hproc
      cases hproc
    · next r hr' =>
      rw [hok.1] at hproc
      rw [Option.some.inj hproc, hr] at hok
      exact absurd hok.2 nofun
    · next r hr' =>
      rw [hok.1] at hproc
      have := (hs.lock p h').mpr (by simp [holdsLock, hr', Option.some.inj hproc])
      rw [hl] at this
      exact hh' (Option.some.inj this).symm
  have hfields := upd_all (s := s) (p := p) (f := fun x => { x with state := .RUNNING })
    (P := fun q x => x.switch = (s.proc q).switch ∧ x.lock = (s.proc q).lock ∧ x.pc = (s.proc q).pc)
    ⟨rfl, rfl, rfl⟩ fun _ => ⟨rfl, rfl, rfl⟩
  refine ⟨?_, ?_, ?_, ?_, ?_, ?_, ?_⟩
  · intro q h'
    rw [setCpu_proc, setCpu_cpu, (hfields q).2.1, hs.lock q h']
    by_cases hh' : h' = h
    · subst hh'
      rw [update_self]
      by_cases hq : p = q
      · subst hq
        simp [holdsLock, hp, hsw]
      · simp [holdsLock, hp, hq]
    · rw [upd_cpu, update_of_ne hh', holdsLock_congr]
      intro _
      exact (hfields q).1.symm
  · intro h'
    refine update_one (motive := fun _ => Cpu.Ok _) h' ⟨rfl, by simp⟩ fun h' hh' => ?_
    apply (hs.cpu h').congr
    intro r hr'
    have hrp : r ≠ p := fun hrp => hfree h' hh' (hrp ▸ hr')
    rw [setCpu_proc, upd_ne hrp]
  · intro q hq
    rw [setCpu_cpu]
    by_cases hqp : q = p
    · exact ⟨h, by rw [update_self, hqp]⟩
    · rw [setCpu_proc, upd_ne hqp] at hq
      obtain ⟨h', hh'⟩ := hs.running q hq
      refine ⟨h', ?_⟩
      have hne : h' ≠ h := by
        intro hne
        rw [hne, hp] at hh'
        cases hh'
      rw [update_of_ne hne]
      exact hh'
  · intro h1 h2 q hq1 hq2
    rcases update_cases (Cpu.proc · = some q) hq1 with ⟨rfl, hc1⟩ | ⟨hne1, hc1⟩
    · rcases update_cases (Cpu.proc · = some q) hq2 with ⟨rfl, -⟩ | ⟨hne2, hc2⟩
      · rfl
      · exact absurd (hc2.trans hc1.symm) (hfree h2 hne2)
    · rcases update_cases (Cpu.proc · = some q) hq2 with ⟨rfl, hc2⟩ | ⟨hne2, hc2⟩
      · exact absurd (hc1.trans hc2.symm) (hfree h1 hne1)
      · exact hs.unique h1 h2 q hc1 hc2
  · rw [setCpu_proc]
    exact upd_all (P := fun _ => Proc.SwitchOk) trivial hs.switch
  · intro r q hrq
    rw [setCpu_proc, (hfields r).2.2] at hrq
    have hu := hs.forks r q hrq
    have hq : q ≠ p := by
      intro hq
      rw [hq, hr] at hu
      cases hu
    rw [setCpu_proc, upd_ne hq]
    exact hu
  · intro r1 r2 q h1 h2
    rw [setCpu_proc, (hfields r1).2.2] at h1
    rw [setCpu_proc, (hfields r2).2.2] at h2
    exact hs.forker r1 r2 q h1 h2

/-- The scheduler of `h` takes or releases the lock of slot `p`. -/
theorem Sched.relockAt (hold : ∀ r, (s.cpu h).pc ≠ .running r) (hnone : c.proc = none)
    (hnew : ∀ r, c.pc ≠ .running r ∧ c.pc ≠ .switched r)
    (hp : Guards (holdsLock p (s.proc p)) l (update s.cpu h c))
    (hother : ∀ q, q ≠ p → c.holdsLock q (s.proc q) = (s.cpu h).holdsLock q (s.proc q)) :
    Sched ((s.upd p fun x => { x with lock := l }).setCpu h c) := by
  refine hs.relock (h := h) (c := c) ?_ rfl hold hnone hnew ?_
  · rw [setCpu_proc]
    exact upd_all (P := fun q x => x.state = (s.proc q).state ∧ x.switch = (s.proc q).switch ∧
      x.pc = (s.proc q).pc) ⟨rfl, rfl, rfl⟩ fun _ => ⟨rfl, rfl, rfl⟩
  · intro q
    by_cases hq : q = p
    · subst hq
      simp only [setCpu_proc, upd_self]
      exact hp
    · simp only [setCpu_proc, upd_ne hq]
      exact (hs.lock q).keep (hother q hq)

/-- **A step of a scheduler** keeps the invariant. -/
theorem Sched.scheduler (hstep : schedulerStep h s = some (e, s')) : Sched s' := by
  have hok := hs.cpu h
  unfold Cpu.Ok at hok
  unfold schedulerStep at hstep
  split at hstep
  · next k hk =>
    rw [hk] at hok
    have hnr : ∀ r, (s.cpu h).pc ≠ .running r := by rw [hk]; nofun
    split at hstep
    · next hlt =>
      dsimp only at hstep
      split at hstep
      · next hfree =>
        cases hstep
        refine hs.relockAt hnr hok (fun r => ⟨nofun, nofun⟩) ((hs.lock _).acquire hfree ?_) ?_
        · simp [holdsLock]
        · intro q hq
          simp [holdsLock, hk, Ne.symm hq]
      · cases hstep
    · cases hstep
      refine hs.relock (h := h) (c := { s.cpu h with pc := .scheduler 0 })
        (fun q => ⟨rfl, rfl, rfl⟩) rfl hnr hok (fun r => ⟨nofun, nofun⟩) ?_
      intro q
      apply (hs.lock q).keep
      simp [holdsLock, hk]
  · next p hp =>
    rw [hp] at hok
    have hnr : ∀ r, (s.cpu h).pc ≠ .running r := by rw [hp]; nofun
    split at hstep
    · next hr =>
      cases hstep
      exact hs.dispatch hp hr
    · cases hstep
      refine hs.relockAt hnr hok (fun r => ⟨nofun, nofun⟩) ((hs.lock p).release ?_ rfl) ?_
      · simp [holdsLock, hp]
      · intro q hq
        simp [holdsLock, hp, Ne.symm hq]
  · cases hstep
  · next p hp =>
    have hnr : ∀ r, (s.cpu h).pc ≠ .running r := by rw [hp]; nofun
    cases hstep
    refine hs.relockAt hnr rfl (fun r => ⟨nofun, nofun⟩) ((hs.lock p).release ?_ rfl) ?_
    · simp [holdsLock, hp]
    · intro q hq
      simp [holdsLock, hp, Ne.symm hq]

/-- **A wakeup** from outside the model keeps the invariant. -/
theorem Sched.wake (hl : (s.proc q).lock = none) : Sched (s.wake d q) := by
  obtain ⟨f, hf, ho, hu⟩ := other_wake (s := s) (d := d) hl
  rw [hf]
  have hoth := upd_all (P := fun r => Other (.wakeup q) r (s.proc r)) ho fun _ =>
    .keep rfl rfl rfl rfl
  have hused := upd_all (P := fun r x => (s.proc r).state = .USED → x.state = .USED) hu fun _ => id
  exact {
    lock := fun r => hs.other_lock (hoth r)
    cpu := fun h => hs.cpu_other fun r _ => hoth r
    running := fun r hr => hs.running r ((hoth r).running hr)
    unique := hs.unique
    switch := fun r => (hoth r).switchOk (hs.switch r)
    forks := fun r t hr => hused t (hs.forks r t ((hoth r).pc_forks hr))
    forker := fun r1 r2 t h1 h2 =>
      hs.forker r1 r2 t ((hoth r1).pc_forks h1) ((hoth r2).pc_forks h2) }

/-- **Every step** keeps the invariant. -/
theorem Sched.exec (hex : Process.exec a s = some (e, s')) : Sched s' := by
  cases a with
  | scheduler h => exact hs.scheduler hex
  | run h d =>
    simp only [Process.exec] at hex
    split at hex
    · next p hp =>
      obtain ⟨⟨e', s1, sw⟩, hstep, heq⟩ := Option.map_eq_some_iff.mp hex
      cases heq
      have he := (procStep_move hstep).effect (hs.cpu_running hp).2 (hs.forks p)
      cases sw with
      | true => exact hs.effect hp he rfl rfl
      | false =>
        have := hs.effect hp he (c := s.cpu h) hp (hs.cpu_running hp).1
        rwa [setCpu, he.cpu, update_eq_self, ← he.cpu] at this
    · cases hex
  | wakeup n q =>
    obtain ⟨hl, hex⟩ := Option.ite_none_right_eq_some.mp hex
    cases hex
    exact hs.wake hl

end

end Preserved

end NoviceKernel.Process
