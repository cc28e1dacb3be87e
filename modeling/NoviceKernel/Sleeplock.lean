import NoviceKernel.Lib.Count
import NoviceKernel.Lib.LockPhase
import NoviceKernel.Lib.TransitionSystem
import NoviceKernel.Lib.Wakeup

/-! # Sleep locks (`sleeplock.c`)

    Any number of processes take and give back one sleep lock, ask whether they
    hold it, and kill each other.

    1. **Model**: `acquiresleep`, `releasesleep` and `holdingsleep` with the
       `sleep`, `wakeup` and `kill` of `proc.c`.
    2. **Invariant**: `locked` is set exactly while one process owns the lock;
       who sleeps finds it set, or will be reached by a `wakeup`.
    3. **Safety**: mutual exclusion, and nobody sleeps on a free lock.

    `sleep` takes the sleeper's own `p->lock` before it releases `lk->lk`; a
    `wakeup` or a `kill` that arrives in between waits until it is asleep. -/

namespace NoviceKernel.Sleeplock

open TransitionSystem LockPhase Wakeup Function Count

/-! ## 1. Model -/

/-- Where a process is. -/
inductive PC where
  | out
  /-- `acquiresleep(lk)`: about to `acquire(&lk->lk)`. -/
  | acquire
  /-- At the head of the `while`. -/
  | test
  /-- `sleep`: holding `lk->lk` and `p->lock`. -/
  | sleepLocked
  /-- `sleep`: `lk->lk` released, `p->lock` still held. -/
  | sleepUnlocked
  | asleep
  /-- Runnable again, about to reacquire `lk->lk`. -/
  | woken
  /-- Past the `while`: `lk->locked = 1; lk->pid = myproc()->pid`. -/
  | take
  /-- The last `release(&lk->lk)` of `acquiresleep`. -/
  | leave
  /-- `releasesleep(lk)`: about to `acquire(&lk->lk)`. -/
  | release
  /-- `lk->locked = 0; lk->pid = 0`. -/
  | clear
  /-- In `wakeup(lk)`, at process `k` of the table. -/
  | wake (k : Nat)
  /-- `holdingsleep(lk)`: about to `acquire(&lk->lk)`. -/
  | holding
  | holdingRead
  deriving DecidableEq

/-- A process. -/
structure Proc where
  pc : PC
  /-- Between the return of an `acquiresleep` and the call of its `releasesleep`. -/
  inside : Bool
  pid : Nat
  deriving DecidableEq

/-- `struct sleeplock` and the processes. -/
structure State (N : Nat) where
  /-- Holder of `lk->lk`. -/
  lk : Option (Fin N)
  locked : Bool
  pid : Nat
  proc : Fin N → Proc

inductive Event (N : Nat) where
  | tau
  /-- `holdingsleep` returns `r` to process `p`. -/
  | holds (p : Fin N) (r : Bool)
  deriving DecidableEq

inductive Action (N : Nat) where
  | acquiresleep (p : Fin N)
  | releasesleep (p : Fin N)
  | holdingsleep (p : Fin N)
  | kill (p : Fin N)
  /-- The next step of `p`. -/
  | run (p : Fin N)

variable {N : Nat} {x : Proc}

/-- Going to sleep or asleep on the lock, the only channel. -/
def Proc.chan (x : Proc) : Option Unit :=
  match x.pc with
  | .sleepLocked | .sleepUnlocked | .asleep => some ()
  | _ => none

/-- The points of `sleep(lk, &lk->lk)`. -/
def sleep : Points Proc Unit where
  chan := Proc.chan
  asleep := fun x => x.pc = .asleep
  wake := fun x => { x with pc := .woken }
  wake_chan := fun _ => rfl

namespace State

/-- Process `p` becomes `x`. -/
def set (s : State N) (p : Fin N) (x : Proc) : State N :=
  { s with proc := update s.proc p x }

/-- Move process `p` to program point `c`. -/
def goto (s : State N) (p : Fin N) (c : PC) : State N := s.set p { s.proc p with pc := c }

/-- `acquire(&lk->lk)`: waits while the lock is held. -/
def acquire (s : State N) (p : Fin N) (c : PC) : Option (Event N × State N) :=
  if s.lk = none then some (.tau, { s.goto p c with lk := some p }) else none

/-- `release(&lk->lk)`. -/
def release (s : State N) : State N := { s with lk := none }

end State

/-- The next step of process `p`. -/
def run (p : Fin N) (s : State N) : Option (Event N × State N) :=
  match (s.proc p).pc with
  | .out | .asleep => none
  | .acquire | .woken => s.acquire p .test
  | .test => some (.tau, s.goto p (if s.locked then .sleepLocked else .take))
  | .sleepLocked => some (.tau, (s.goto p .sleepUnlocked).release)
  | .sleepUnlocked => some (.tau, s.goto p .asleep)
  | .take => some (.tau, { s.goto p .leave with locked := true, pid := (s.proc p).pid })
  | .leave => some (.tau, (s.set p { s.proc p with pc := .out, inside := true }).release)
  | .release => s.acquire p .clear
  | .clear => some (.tau, { s.goto p (.wake 0) with locked := false, pid := 0 })
  | .wake k =>
    if hk : k < N then
      (round sleep () (some p) ⟨k, hk⟩ s.proc).map fun procs =>
        (.tau, ({ s with proc := procs } : State N).goto p (.wake (k + 1)))
    else some (.tau, (s.goto p .out).release)
  | .holding => s.acquire p .holdingRead
  | .holdingRead =>
    some (.holds p (s.locked && s.pid = (s.proc p).pid), (s.goto p .out).release)

/-- The steps of the system.  `releasesleep` is called by a process that has
    taken the lock; `acquiresleep` by any, also by one that has it already. -/
def exec : Action N → State N → Option (Event N × State N)
  | .acquiresleep p, s => if (s.proc p).pc = .out then some (.tau, s.goto p .acquire) else none
  | .releasesleep p, s =>
    if (s.proc p).pc = .out ∧ (s.proc p).inside = true then
      some (.tau, s.set p { s.proc p with pc := .release, inside := false })
    else none
  | .holdingsleep p, s => if (s.proc p).pc = .out then some (.tau, s.goto p .holding) else none
  | .kill p, s =>
    match (s.proc p).pc with
    -- p->lock is held until p is asleep
    | .sleepLocked | .sleepUnlocked => none
    | .asleep => some (.tau, s.goto p .woken)
    | _ => some (.tau, s)
  | .run p, s => run p s

/-- After `initsleeplock`. -/
def init (pids : Fin N → Nat) : State N where
  lk := none
  locked := false
  pid := 0
  proc := fun p => ⟨.out, false, pids p⟩

def Initial (s : State N) : Prop := ∃ pids, s = init pids

theorem initial (pids : Fin N → Nat) : Initial (init pids) := ⟨pids, rfl⟩

def system (N : Nat) : System (State N) (Event N) := ofExec Initial exec

/-! ## 2. Invariant -/

namespace Proc

/-- Inside a section of `lk->lk`. -/
def holdsLk (x : Proc) : Bool :=
  match x.pc with
  | .test | .sleepLocked | .take | .leave | .clear | .wake _ | .holdingRead => true
  | _ => false

/-- Owns the sleep lock: from the step that sets `locked` to the one that clears it. -/
def owns (x : Proc) : Bool :=
  match x.pc with
  | .leave | .release | .clear => true
  | _ => x.inside

/-- The process has yet to reach process `q` with its `wakeup(lk)`. -/
def owes (x : Proc) (_ : Unit) (q : Fin N) : Prop :=
  match x.pc with
  | .wake k => k ≤ q
  | _ => False

theorem not_owes_of_chan {c : Unit} {q : Fin N} (h : sleep.chan x ≠ none) : ¬ x.owes c q := by
  intro ho
  change x.chan ≠ none at h
  unfold chan at h
  unfold owes at ho
  split at ho
  · next hk => rw [hk] at h; exact h rfl
  · exact ho

/-- What a process has found or done on the way to its program point. -/
def Found (x : Proc) (locked : Bool) : Prop :=
  match x.pc with
  | .take => locked = false
  | .release | .clear => x.inside = false
  | _ => True

/-- Only the process that holds `lk->lk` relies on `locked`. -/
theorem Found.mono {b : Bool} (h : x.Found b) (hlk : x.holdsLk = false) (b' : Bool) :
    x.Found b' := by
  unfold Found at h ⊢
  unfold holdsLk at hlk
  cases hx : x.pc <;> rw [hx] at h hlk <;> first | exact h | cases hlk

end Proc

/-- Who sleeps finds the lock taken, or will be woken. -/
abbrev State.Waits (s : State N) : Prop :=
  Wakeup.Waits sleep Proc.owes (fun _ => s.locked = true) s.proc

structure Inv (s : State N) : Prop where
  lk : Guards Proc.holdsLk s.lk s.proc
  /-- `locked` is set exactly while somebody owns the lock. -/
  owner : ∃ o : Option (Fin N), s.locked = o.isSome ∧ Guards Proc.owns o s.proc
  pid : ∀ p, (s.proc p).owns = true → s.pid = (s.proc p).pid
  found : ∀ p, (s.proc p).Found s.locked
  waits : s.Waits

open Proc

theorem inv_init (pids : Fin N → Nat) : Inv (init pids) where
  lk := by intro p; simp [init, holdsLk]
  owner := ⟨none, rfl, by intro p; simp [init, owns]⟩
  pid := by intro p hp; simp [init, owns] at hp
  found := fun _ => trivial
  waits := by intro p c hp; simp [init, sleep, chan] at hp

section Steps

variable {s s' : State N} {p : Fin N} {x : Proc} {c : PC} {e : Event N}

section

variable {l : Option (Fin N)} {b : Bool} {pid : Nat} {o : Option (Fin N)} {k : Nat}
  {procs : Fin N → Proc} {a : Action N} (h : Inv s)
include h

/-- A step of `p` that leaves the fields of the sleep lock alone. -/
theorem Inv.set (lk : Guards holdsLk l (update s.proc p x)) (owns : x.owns = (s.proc p).owns)
    (pid : x.pid = (s.proc p).pid) (found : x.Found s.locked) (waits : (s.set p x).Waits) :
    Inv { s.set p x with lk := l } where
  lk := lk
  owner := by
    obtain ⟨o, ho, hg⟩ := h.owner
    exact ⟨o, ho, hg.keep owns⟩
  pid := by
    intro q
    refine update_one (motive := fun _ (x : Proc) => x.owns = true → s.pid = x.pid) q ?_ fun q _ =>
      h.pid q
    rw [owns, pid]
    exact h.pid p
  found := fun q => update_one (motive := fun _ (x : Proc) => x.Found s.locked) q found fun q _ =>
    h.found q
  waits := waits

/-- A move inside a section of `lk->lk`, or outside of all. -/
theorem Inv.keep (lk : x.holdsLk = (s.proc p).holdsLk) (owns : x.owns = (s.proc p).owns)
    (pid : x.pid = (s.proc p).pid) (found : x.Found s.locked) (waits : (s.set p x).Waits) :
    Inv (s.set p x) :=
  h.set (l := s.lk) (h.lk.keep lk) owns pid found waits

/-- `acquire(&lk->lk)`. -/
theorem Inv.acquire (hex : s.acquire p c = some (e, s'))
    (lk : ({ s.proc p with pc := c } : Proc).holdsLk = true)
    (owns : ({ s.proc p with pc := c } : Proc).owns = (s.proc p).owns)
    (found : ({ s.proc p with pc := c } : Proc).Found s.locked) (waits : (s.goto p c).Waits) :
    Inv s' := by
  obtain ⟨hfree, hex⟩ := Option.ite_none_right_eq_some.mp hex
  cases hex
  exact h.set (h.lk.acquire hfree lk) owns rfl found waits

/-- `release(&lk->lk)`. -/
theorem Inv.release (hp : (s.proc p).holdsLk = true) (lk : x.holdsLk = false)
    (owns : x.owns = (s.proc p).owns) (pid : x.pid = (s.proc p).pid) (found : x.Found s.locked)
    (waits : (s.set p x).Waits) : Inv (s.set p x).release :=
  h.set (h.lk.release hp lk) owns pid found waits

/-- The holder of `lk->lk` writes the fields of the sleep lock. -/
theorem Inv.write (hp : (s.proc p).holdsLk = true)
    (lk : ({ s.proc p with pc := c } : Proc).holdsLk = true) (locked : b = o.isSome)
    (owner : Guards owns o (s.goto p c).proc) (hpid : ∀ q, o = some q → pid = (s.proc q).pid)
    (found : ({ s.proc p with pc := c } : Proc).Found b)
    (waits : Wakeup.Waits sleep owes (fun _ => b = true) (s.goto p c).proc) :
    Inv { s.goto p c with locked := b, pid := pid } where
  lk := h.lk.keep (lk.trans hp.symm)
  owner := ⟨o, locked, owner⟩
  pid := by
    intro q hq
    rw [hpid q ((owner q).mpr hq)]
    exact update_one (motive := fun q (x : Proc) => (s.proc q).pid = x.pid) q rfl fun _ _ => rfl
  found := by
    intro q
    refine update_one (motive := fun _ (x : Proc) => x.Found b) q found fun q hqp => ?_
    apply (h.found q).mono
    -- nobody else is in a section of lk->lk
    cases hq : (s.proc q).holdsLk with
    | false => rfl
    | true => exact absurd (h.lk.unique hq hp) hqp
  waits := waits

/-- `lk->locked = 1` by the process that has left the `while`: the lock is free,
    so nobody owned it. -/
theorem Inv.lock (hp : (s.proc p).pc = .take) :
    Inv { s.goto p .leave with locked := true, pid := (s.proc p).pid } := by
  have hlk : (s.proc p).holdsLk = true := by simp [holdsLk, hp]
  have hfree : s.locked = false := by
    have := h.found p
    simpa [Proc.Found, hp] using this
  obtain ⟨o, ho, hg⟩ := h.owner
  have hnone : o = none := by simpa [hfree] using ho.symm
  apply h.write hlk rfl (o := some p) rfl (hg.acquire hnone rfl)
  · intro q hq
    rw [Option.some.inj hq]
  · trivial
  · apply h.waits.move
    · intro _ _
      rfl
    · intro _ _ _ _ _
      exact .inl rfl

/-- `lk->locked = 0` by the owner, who now owes a `wakeup` to everybody. -/
theorem Inv.unlock (hp : (s.proc p).pc = .clear) :
    Inv { s.goto p (.wake 0) with locked := false, pid := 0 } := by
  have hlk : (s.proc p).holdsLk = true := by simp [holdsLk, hp]
  have hin : (s.proc p).inside = false := by
    have := h.found p
    simpa [Proc.Found, hp] using this
  obtain ⟨o, ho, hg⟩ := h.owner
  have hg' : Guards owns none (s.goto p (.wake 0)).proc :=
    hg.release (by simp [owns, hp]) hin
  apply h.write hlk rfl (o := none) rfl hg'
  · intro q hq
    cases hq
  · trivial
  · apply h.waits.move
    · intro _ hc
      cases hc
    · intro _ q _ _ _
      exact .inr (Nat.zero_le q)

/-- A move of a process that neither starts nor ends a sleep and has nobody to
    wake. -/
theorem Inv.quiet (hchan : x.chan = (s.proc p).chan) (hwake : ∀ k, (s.proc p).pc ≠ .wake k) :
    (s.set p x).Waits := by
  apply h.waits.stay hchan
  intro c q ho
  unfold owes at ho
  split at ho
  · next k hpc => exact hwake k hpc
  · exact ho

theorem Inv.keepQuiet (lk : x.holdsLk = (s.proc p).holdsLk) (owns : x.owns = (s.proc p).owns)
    (pid : x.pid = (s.proc p).pid) (found : x.Found s.locked) (chan : x.chan = (s.proc p).chan)
    (wake : ∀ k, (s.proc p).pc ≠ .wake k) : Inv (s.set p x) :=
  h.keep lk owns pid found (h.quiet chan wake)

theorem Inv.releaseQuiet (hp : (s.proc p).holdsLk = true) (lk : x.holdsLk = false)
    (owns : x.owns = (s.proc p).owns) (pid : x.pid = (s.proc p).pid) (found : x.Found s.locked)
    (chan : x.chan = (s.proc p).chan) (wake : ∀ k, (s.proc p).pc ≠ .wake k) :
    Inv (s.set p x).release :=
  h.release hp lk owns pid found (h.quiet chan wake)

theorem Inv.acquireQuiet (hex : s.acquire p c = some (e, s'))
    (lk : ({ s.proc p with pc := c } : Proc).holdsLk = true)
    (owns : ({ s.proc p with pc := c } : Proc).owns = (s.proc p).owns)
    (found : ({ s.proc p with pc := c } : Proc).Found s.locked)
    (chan : ({ s.proc p with pc := c } : Proc).chan = (s.proc p).chan)
    (wake : ∀ k, (s.proc p).pc ≠ .wake k) : Inv s' :=
  h.acquire hex lk owns found (h.quiet chan wake)

/-- A sleeper is made runnable, by `wakeup` or by `kill`. -/
theorem Inv.wake (hp : (s.proc p).pc = .asleep) : Inv (s.goto p .woken) := by
  apply h.keep
  · simp [holdsLk, hp]
  · simp [owns, hp]
  · rfl
  · trivial
  · apply Waits.wake (m := sleep) h.waits
    intro c r ho
    simp [owes, hp] at ho

/-- One round of `wakeup(lk)`. -/
theorem Inv.scan (hp : (s.proc p).pc = .wake k) (hk : k < N)
    (hround : round sleep () (some p) ⟨k, hk⟩ s.proc = some procs) :
    Inv (({ s with proc := procs } : State N).goto p (.wake (k + 1))) := by
  have hw : Wakeup.Waits sleep owes (fun _ => s.locked = true)
      (update procs p { procs p with pc := .wake (k + 1) }) := by
    apply h.waits.scan hround
    · intro y c r
      exact not_owes_of_chan
    · intro c r ho
      rw [owes, hp] at ho
      exact ⟨rfl, ho⟩
    · intro r hr
      exact hr
    · rfl
  have hmove : ∀ t : State N, Inv t → (t.proc p).pc = .wake k → (t.goto p (.wake (k + 1))).Waits →
      Inv (t.goto p (.wake (k + 1))) := by
    intro t ht hpc hwt
    apply ht.keep
    · simp [holdsLk, hpc]
    · simp [owns, hpc]
    · rfl
    · trivial
    · exact hwt
  rcases round_cases hround with ⟨rfl, -⟩ | ⟨hne, -, hq, rfl⟩
  · exact hmove s h hp hw
  · have hq : (s.proc ⟨k, hk⟩).pc = .asleep := by simpa [sleep] using hq
    apply hmove (s.goto ⟨k, hk⟩ .woken)
    · exact h.wake hq
    · have hpq : p ≠ ⟨k, hk⟩ := by simpa using hne
      change (update s.proc _ _ p).pc = _
      rw [update_of_ne hpq, hp]
    · exact hw

/-- The `wakeup` is over: everybody has been reached. -/
theorem Inv.scanned (hp : (s.proc p).pc = .wake k) (hk : N ≤ k) : Inv (s.goto p .out).release := by
  apply h.release
  · simp [holdsLk, hp]
  · rfl
  · simp [owns, hp]
  · rfl
  · trivial
  · apply h.waits.move
    · intro _ hc
      cases hc
    · intro c q _ _ hold
      rcases hold with hr | ho
      · exact .inl hr
      · simp only [owes, hp] at ho
        omega

/-- At the head of the `while`: to sleep if the lock is taken. -/
theorem Inv.test (hp : (s.proc p).pc = .test) :
    Inv (s.goto p (if s.locked then .sleepLocked else .take)) := by
  cases hl : s.locked with
  | true =>
    apply h.keep
    · simp [holdsLk, hp]
    · simp [owns, hp]
    · rfl
    · trivial
    · apply h.waits.move
      · intro _ _
        exact hl
      · intro _ _ _ _ _
        exact .inl hl
  | false =>
    apply h.keep
    · simp [holdsLk, hp]
    · simp [owns, hp]
    · rfl
    · exact hl
    · apply h.quiet <;> simp [chan, hp]

/-- A step of the process itself. -/
theorem inv_run (hex : run p s = some (e, s')) : Inv s' := by
  unfold run at hex
  generalize hpc : (s.proc p).pc = c at hex
  cases c with
  | out | asleep => cases hex
  | acquire | woken | holding =>
    apply h.acquireQuiet hex <;> simp [holdsLk, owns, Proc.Found, chan, hpc]
  | release =>
    have hin : (s.proc p).inside = false := by
      have := h.found p
      simpa [Proc.Found, hpc] using this
    apply h.acquireQuiet hex <;> simp [holdsLk, owns, Proc.Found, chan, hpc, hin]
  | test =>
    cases hex
    exact h.test hpc
  | take =>
    cases hex
    exact h.lock hpc
  | clear =>
    cases hex
    exact h.unlock hpc
  | sleepUnlocked =>
    cases hex
    apply h.keepQuiet <;> simp [holdsLk, owns, Proc.Found, chan, hpc]
  | sleepLocked | leave | holdingRead =>
    cases hex
    apply h.releaseQuiet <;> simp [holdsLk, owns, Proc.Found, chan, hpc]
  | wake k =>
    dsimp only at hex
    split at hex
    · next hk =>
      obtain ⟨procs, hround, heq⟩ := Option.map_eq_some_iff.mp hex
      cases heq
      exact h.scan hpc hk hround
    · next hk =>
      cases hex
      exact h.scanned hpc (Nat.le_of_not_lt hk)

theorem inv_exec (hex : exec a s = some (e, s')) : Inv s' := by
  cases a with
  | run p => exact inv_run h hex
  | acquiresleep p | holdingsleep p | releasesleep p =>
    obtain ⟨hpc, hex⟩ := Option.ite_none_right_eq_some.mp hex
    cases hex
    apply h.keepQuiet <;> simp [holdsLk, owns, Proc.Found, chan, hpc]
  | kill p =>
    rw [exec] at hex
    split at hex
    · cases hex
    · cases hex
    · next hpc =>
      cases hex
      exact h.wake hpc
    · cases hex
      exact h

end

end Steps

theorem inv_reachable {s : State N} (h : Reachable (system N) s) : Inv s := by
  apply h.invariant
  · intro s hs
    obtain ⟨pids, rfl⟩ := hs
    exact inv_init pids
  · intro s e s' hinv hstep
    obtain ⟨a, hex⟩ := hstep
    exact inv_exec hinv hex

/-! ## 3. Safety -/

/-- **Sleep-lock safety.**  In every state of every run at most one process is
    between the return of its `acquiresleep` and its `releasesleep`; and while
    `lk->lk` is free and `locked` is 0, nobody sleeps on the lock. -/
theorem sleeplock_safe {s : State N} (h : Reachable (system N) s) :
    (∀ p q, (s.proc p).inside = true → (s.proc q).inside = true → p = q) ∧
      (s.lk = none → s.locked = false → ∀ p, (s.proc p).pc ≠ .asleep) := by
  have hinv := inv_reachable h
  have howns : ∀ p, (s.proc p).inside = true → (s.proc p).owns = true := by
    intro p hp
    unfold owns
    split <;> first | rfl | exact hp
  constructor
  · intro p q hp hq
    obtain ⟨o, -, hg⟩ := hinv.owner
    exact hg.unique (howns p hp) (howns q hq)
  · intro hfree hlocked p hp
    rcases hinv.waits p () (by simp [sleep, chan, hp]) with hreason | ⟨q, hq⟩
    · rw [hlocked] at hreason
      cases hreason
    · -- who owes a wakeup is in a section of lk->lk
      have hout := hinv.lk.free hfree q
      unfold owes at hq
      split at hq
      · next k hk => simp [holdsLk, hk] at hout
      · exact hq

/-- Two processes. -/
def taker : Fin 2 := ⟨0, Nat.zero_lt_two⟩

def waiter : Fin 2 := ⟨1, Nat.one_lt_two⟩

/-- One process takes the lock; the other goes to sleep on it, is killed, finds
    the lock still taken and goes to sleep again. -/
def contended : List (Action 2) :=
  [.acquiresleep taker, .run taker, .run taker, .run taker, .run taker, .acquiresleep waiter,
    .run waiter,
    .run waiter, .run waiter, .run waiter, .kill waiter, .run waiter, .run waiter, .run waiter,
      .run waiter]

/-- The lock is given back and the sleeper is woken. -/
def givenBack : List (Action 2) :=
  contended ++ [.releasesleep taker, .run taker, .run taker, .run taker, .run taker, .run taker]

theorem sleeplock_safe_contended :
    (∃ s : State 2, Reachable (system 2) s ∧ (s.proc taker).inside = true ∧
      (s.proc waiter).pc = .asleep ∧ (s.proc waiter).inside = false) ∧
    ∃ s : State 2, Reachable (system 2) s ∧ s.lk = none ∧ s.locked = false ∧
      (s.proc waiter).pc = .woken ∧ ∀ p, (s.proc p).pc ≠ .asleep := by
  constructor
  · obtain ⟨tr, s, htr, ht⟩ := exists_trace_of_replay exec contended
      (fun _ (s : State 2) => (s.proc taker).inside && ((s.proc waiter).pc == .asleep))
      (initial fun _ => 1) (by decide)
    have hr : Reachable (system 2) s := ⟨tr, htr⟩
    obtain ⟨ha, hb⟩ := Bool.and_eq_true_iff.mp ht
    refine ⟨s, hr, ha, eq_of_beq hb, ?_⟩
    cases hin : (s.proc waiter).inside with
    | false => rfl
    | true => exact absurd ((sleeplock_safe hr).1 taker waiter ha hin) (by decide)
  · obtain ⟨tr, s, htr, ht⟩ := exists_trace_of_replay exec givenBack
      (fun _ (s : State 2) => s.lk.isNone && !s.locked && ((s.proc waiter).pc == .woken))
      (initial fun _ => 1) (by decide)
    simp only [Bool.and_eq_true, Option.isNone_iff_eq_none, Bool.not_eq_true', beq_iff_eq] at ht
    obtain ⟨⟨hlk, hlocked⟩, hb⟩ := ht
    have hr : Reachable (system 2) s := ⟨tr, htr⟩
    exact ⟨s, hr, hlk, hlocked, hb, (sleeplock_safe hr).2 hlk hlocked⟩

end NoviceKernel.Sleeplock
