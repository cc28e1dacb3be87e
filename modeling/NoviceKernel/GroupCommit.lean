import NoviceKernel.Lib.TransitionSystem
import NoviceKernel.Lib.Count
import NoviceKernel.Lib.LockPhase
import NoviceKernel.Param

/-! # Group commit (`log.c`): `begin_op`, `log_write`, `end_op`

    Any number of processes run file system operations.  Each is at a program
    point of one of the three functions, or of the `commit` that its `end_op`
    runs without holding `log.lock`; one step of the system is one step of one
    process, or a `kill` that wakes a sleeper.

    1. **Model**: program points, the shared fields of `struct log`, the steps.
    2. **Invariant**: who holds `log.lock`, what `outstanding` counts, who
       commits, when the header is empty, why a sleeper will be woken.
    3. **Traces**: no commit happens inside an operation, and the first commit
       after it lists every block the operation logged.

    `sleep(&log, &log.lock)` takes the sleeper's own `p->lock` before it
    releases `log.lock`; a `wakeup` loop that arrives in between waits at that
    process until it is asleep. -/

namespace NoviceKernel.GroupCommit

open TransitionSystem LockPhase Count List

/-! ## 1. Model -/

/-- Where a process is. -/
inductive PC where
  /-- Outside of any operation. -/
  | out
  /-- `begin_op`: about to `acquire(&log.lock)`. -/
  | beginAcquire
  /-- `begin_op`: at the head of the `while`, holding `log.lock`. -/
  | beginTest
  /-- `sleep`: holding `log.lock` and `p->lock`. -/
  | sleepLocked
  /-- `sleep`: `log.lock` released, `p->lock` still held. -/
  | sleepUnlocked
  /-- `SLEEPING` on `&log`. -/
  | asleep
  /-- `sleep`: runnable again, about to reacquire `log.lock`. -/
  | woken
  /-- Between `begin_op` and `end_op`. -/
  | inOp
  | logAcquire (b : Nat)
  | logTest (b : Nat)
  | endAcquire
  | endTest
  /-- `end_op`: in `wakeup(&log)`, at process `k` of the table. -/
  | endWake (k : Nat)
  /-- `commit`: the test `log.lh.n > 0`. -/
  | commitTest
  /-- `write_log`: `tail` blocks copied. -/
  | writeLog (tail : Nat)
  /-- The first `write_head`. -/
  | writeHead
  /-- `install_trans`: `tail` blocks installed. -/
  | install (tail : Nat)
  /-- `log.lh.n = 0`. -/
  | clear
  /-- The second `write_head`. -/
  | clearHead
  | commitAcquire
  /-- `log.committing = 0`, holding `log.lock`. -/
  | commitDone
  /-- `end_op` after the commit: in `wakeup(&log)`, at process `k`. -/
  | commitWake (k : Nat)
  /-- `panic(msg)`. -/
  | panic (msg : String)
  deriving DecidableEq

/-- The shared fields of `struct log` and the processes. -/
structure State (N : Nat) where
  /-- Holder of `log.lock`. -/
  lock : Option (Fin N)
  outstanding : Int
  committing : Bool
  /-- `log.lh.block[0..log.lh.n)`. -/
  lh : List Nat
  pc : Fin N → PC

/-- What a step is seen to do. -/
inductive Event (N : Nat) where
  | began (p : Fin N)
  | logged (p : Fin N) (b : Nat)
  | ended (p : Fin N)
  /-- The first `write_head` of a commit, with the header it writes. -/
  | commit (bs : List Nat)
  | tau
  deriving DecidableEq

inductive Action (N : Nat) where
  /-- The process calls one of the three functions. -/
  | begin_op (p : Fin N)
  | log_write (p : Fin N) (b : Nat)
  | end_op (p : Fin N)
  /-- `kill` makes a sleeping process runnable. -/
  | kill (p : Fin N)
  /-- The process takes its next step. -/
  | run (p : Fin N)

variable {N : Nat}

namespace State

/-- Move process `p` to program point `c`. -/
def goto (s : State N) (p : Fin N) (c : PC) : State N :=
  { s with pc := Function.update s.pc p c }

/-- `acquire(&log.lock)`: waits while the lock is held. -/
def acquire (s : State N) (p : Fin N) (c : PC) : Option (Event N × State N) :=
  if s.lock = none then some (.tau, { s.goto p c with lock := some p }) else none

/-- `release(&log.lock)`. -/
def release (s : State N) : State N := { s with lock := none }

end State

/-- The loop of `log_write` and the store after it: absorption, or one more
    block in the header. -/
def addBlock (lh : List Nat) (b : Nat) : List Nat := if b ∈ lh then lh else lh ++ [b]

/-- One round of the loop of `wakeup(&log)` run by `p`, at process `k`; `next`
    is the program point of the following round. -/
def wakeup (s : State N) (p : Fin N) (k : Nat) (next : PC) : Option (Event N × State N) :=
  if hk : k < N then
    let q : Fin N := ⟨k, hk⟩
    if q = p then some (.tau, s.goto p next)
    else match s.pc q with
      -- q->lock is held until q is asleep
      | .sleepLocked | .sleepUnlocked => none
      | .asleep => some (.tau, (s.goto q .woken).goto p next)
      | _ => some (.tau, s.goto p next)
  else some (.tau, (s.goto p .out).release)

/-- The next step of process `p`; `size` is `log.size`. -/
def run (size : Nat) (p : Fin N) (s : State N) : Option (Event N × State N) :=
  match s.pc p with
  | .out | .inOp | .asleep | .panic _ => none
  | .beginAcquire => s.acquire p .beginTest
  | .beginTest =>
    if s.committing then some (.tau, s.goto p .sleepLocked)
    else if (s.lh.length : Int) + (s.outstanding + 1) * MAXOPBLOCKS > LOGSIZE then
      some (.tau, s.goto p .sleepLocked)
    else some (.began p, { (s.goto p .inOp).release with outstanding := s.outstanding + 1 })
  | .sleepLocked => some (.tau, (s.goto p .sleepUnlocked).release)
  | .sleepUnlocked => some (.tau, s.goto p .asleep)
  | .woken => s.acquire p .beginTest
  | .logAcquire b => s.acquire p (.logTest b)
  | .logTest b =>
    if s.lh.length ≥ LOGSIZE ∨ s.lh.length ≥ size - 1 then
      some (.tau, s.goto p (.panic "too big a transaction"))
    else if s.outstanding < 1 then
      some (.tau, s.goto p (.panic "log_write outside of trans"))
    else some (.logged p b, { (s.goto p .inOp).release with lh := addBlock s.lh b })
  | .endAcquire => s.acquire p .endTest
  | .endTest =>
    let s := { s with outstanding := s.outstanding - 1 }
    if s.committing then some (.ended p, s.goto p (.panic "log.committing"))
    else if s.outstanding = 0 then
      some (.ended p, { (s.goto p .commitTest).release with committing := true })
    else some (.ended p, s.goto p (.endWake 0))
  | .endWake k => wakeup s p k (.endWake (k + 1))
  | .commitTest =>
    if s.lh.length > 0 then some (.tau, s.goto p (.writeLog 0))
    else some (.tau, s.goto p .commitAcquire)
  | .writeLog tail =>
    if tail < s.lh.length then some (.tau, s.goto p (.writeLog (tail + 1)))
    else some (.tau, s.goto p .writeHead)
  | .writeHead => some (.commit s.lh, s.goto p (.install 0))
  | .install tail =>
    if tail < s.lh.length then some (.tau, s.goto p (.install (tail + 1)))
    else some (.tau, s.goto p .clear)
  | .clear => some (.tau, { s.goto p .clearHead with lh := [] })
  | .clearHead => some (.tau, s.goto p .commitAcquire)
  | .commitAcquire => s.acquire p .commitDone
  | .commitDone => some (.tau, { s.goto p (.commitWake 0) with committing := false })
  | .commitWake k => wakeup s p k (.commitWake (k + 1))

/-- The steps of the system. -/
def exec (size : Nat) : Action N → State N → Option (Event N × State N)
  | .begin_op p, s => if s.pc p = .out then some (.tau, s.goto p .beginAcquire) else none
  | .log_write p b, s => if s.pc p = .inOp then some (.tau, s.goto p (.logAcquire b)) else none
  | .end_op p, s => if s.pc p = .inOp then some (.tau, s.goto p .endAcquire) else none
  | .kill p, s => if s.pc p = .asleep then some (.tau, s.goto p .woken) else none
  | .run p, s => run size p s

/-- After `initlog`: nobody is in an operation, the header is empty. -/
def init : State N where
  lock := none
  outstanding := 0
  committing := false
  lh := []
  pc := fun _ => .out

/-- The group commit protocol for `N` processes. -/
def system (N size : Nat) : System (State N) (Event N) := ofExec (· = init) (exec size)

/-! ## 2. Invariant -/

namespace PC

/-- Inside a section of `log.lock`. -/
def holdsLock : PC → Bool
  | beginTest | sleepLocked | logTest _ | endTest | endWake _ | commitDone | commitWake _
  | panic _ => true
  | _ => false

/-- Between the increment of `outstanding` and its decrement. -/
def active : PC → Bool
  | inOp | logAcquire _ | logTest _ | endAcquire | endTest | panic _ => true
  | _ => false

/-- Between `log.committing = 1` and `log.committing = 0`. -/
def committer : PC → Bool
  | commitTest | writeLog _ | writeHead | install _ | clear | clearHead | commitAcquire
  | commitDone => true
  | _ => false

/-- In `commit`. -/
def inCommit : PC → Bool
  | commitTest | writeLog _ | writeHead | install _ | clear | clearHead => true
  | _ => false

/-- In `log_write`. -/
def inLogWrite : PC → Bool
  | logAcquire _ | logTest _ => true
  | _ => false

/-- After the header write that commits. -/
def published : PC → Bool
  | install _ | clear | clearHead | commitAcquire | commitDone => true
  | _ => false

/-- After `log.lh.n = 0`. -/
def cleared : PC → Bool
  | clearHead | commitAcquire | commitDone => true
  | _ => false

/-- Going to sleep or asleep in `begin_op`. -/
def waiting : PC → Bool
  | sleepLocked | sleepUnlocked | asleep => true
  | _ => false

end PC

@[simp] theorem State.goto_self (s : State N) (p : Fin N) (c : PC) : (s.goto p c).pc p = c := by
  simp [goto]

variable {p q : Fin N}

@[simp] theorem State.goto_ne (s : State N) (c : PC) (h : q ≠ p) : (s.goto p c).pc q = s.pc q := by
  simp [goto, h]

/-- The condition under which `begin_op` sleeps. -/
def State.Full (s : State N) : Prop :=
  s.committing = true ∨ (s.lh.length : Int) + (s.outstanding + 1) * MAXOPBLOCKS > LOGSIZE

/-- Everything a step can do, by its effect on the shared fields. -/
inductive Move (s : State N) : Event N → State N → Prop where
  /-- Only the program point changes, between points of the same kind. -/
  | quiet (p : Fin N) (c : PC) (e : Event N)
      (lock : c.holdsLock = (s.pc p).holdsLock) (active : c.active = (s.pc p).active)
      (committer : c.committer = (s.pc p).committer)
      (cleared : c.cleared = true → (s.pc p).cleared = true ∨ s.lh = [])
      (waiting : c.waiting = true → (s.pc p).waiting = true ∨ s.Full)
      (notWaking : ∀ k, s.pc p ≠ .commitWake k) (notPanic : c ≠ .panic "log.committing")
      (event : e = .tau ∧ (c.published = true → (s.pc p).published = true ∨ s.lh = []) ∨
        s.pc p = .writeHead ∧ e = .commit s.lh) :
      Move s e (s.goto p c)
  | acquire (p : Fin N) (c : PC) (free : s.lock = none)
      (before : (s.pc p).holdsLock = false) (lock : c.holdsLock = true)
      (active : c.active = (s.pc p).active) (committer : c.committer = (s.pc p).committer)
      (cleared : c.cleared = (s.pc p).cleared) (published : c.published = (s.pc p).published)
      (waiting : c.waiting = false) (notPanic : c ≠ .panic "log.committing") :
      Move s .tau { s.goto p c with lock := some p }
  | sleep (p : Fin N) (at_ : s.pc p = .sleepLocked) :
      Move s .tau (s.goto p .sleepUnlocked).release
  | begin (p : Fin N) (at_ : s.pc p = .beginTest) (room : ¬ s.Full) :
      Move s (.began p) { (s.goto p .inOp).release with outstanding := s.outstanding + 1 }
  | log (p : Fin N) (b : Nat) (at_ : s.pc p = .logTest b) :
      Move s (.logged p b) { (s.goto p .inOp).release with lh := addBlock s.lh b }
  | endLast (p : Fin N) (at_ : s.pc p = .endTest) (last : s.outstanding - 1 = 0) :
      Move s (.ended p) { (s.goto p .commitTest).release with
        committing := true, outstanding := s.outstanding - 1 }
  | endMore (p : Fin N) (at_ : s.pc p = .endTest) (more : s.outstanding - 1 ≠ 0) :
      Move s (.ended p) { s.goto p (.endWake 0) with outstanding := s.outstanding - 1 }
  | endPanic (p : Fin N) (at_ : s.pc p = .endTest) (busy : s.committing = true) :
      Move s (.ended p) { s.goto p (.panic "log.committing") with
        outstanding := s.outstanding - 1 }
  | clear (p : Fin N) (at_ : s.pc p = .clear) :
      Move s .tau { s.goto p .clearHead with lh := [] }
  | done (p : Fin N) (at_ : s.pc p = .commitDone) :
      Move s .tau { s.goto p (.commitWake 0) with committing := false }
  /-- A round of `wakeup` that finds nobody to wake. -/
  | wakeSkip (p q : Fin N) (c : PC)
      (at_ : s.pc p = .endWake q ∧ c = .endWake (q + 1) ∨
        s.pc p = .commitWake q ∧ c = .commitWake (q + 1))
      (notWaiting : (s.pc q).waiting = false) : Move s .tau (s.goto p c)
  | wakeOne (p q : Fin N) (c : PC) (ne : q ≠ p)
      (at_ : s.pc p = .endWake q ∧ c = .endWake (q + 1) ∨
        s.pc p = .commitWake q ∧ c = .commitWake (q + 1))
      (asleep : s.pc q = .asleep) : Move s .tau ((s.goto q .woken).goto p c)
  | wakeEnd (p : Fin N) (k : Nat) (at_ : s.pc p = .endWake k ∨ s.pc p = .commitWake k)
      (past : N ≤ k) : Move s .tau (s.goto p .out).release

variable {s s' : State N} {e : Event N} {c : PC}

theorem move_of_acquire
    (h : s.acquire p c = some (e, s')) (before : (s.pc p).holdsLock = false)
    (lock : c.holdsLock = true) (active : c.active = (s.pc p).active)
    (committer : c.committer = (s.pc p).committer) (cleared : c.cleared = (s.pc p).cleared)
    (published : c.published = (s.pc p).published) (waiting : c.waiting = false)
    (notPanic : c ≠ .panic "log.committing") : Move s e s' := by
  obtain ⟨free, h⟩ := Option.ite_none_right_eq_some.mp h
  cases h
  exact .acquire p c free before lock active committer cleared published waiting notPanic

theorem move_of_wakeup {k : Nat} (h : wakeup s p k c = some (e, s'))
    (at_ : s.pc p = .endWake k ∧ c = .endWake (k + 1) ∨
      s.pc p = .commitWake k ∧ c = .commitWake (k + 1)) : Move s e s' := by
  unfold wakeup at h
  split at h
  · next hk =>
    have hself : (s.pc p).waiting = false := by
      rcases at_ with ⟨hc, -⟩ | ⟨hc, -⟩ <;> rw [hc] <;> rfl
    simp only at h
    split at h
    · next hq =>
      cases h
      exact .wakeSkip p ⟨k, hk⟩ c at_ (hq ▸ hself)
    · next hq =>
      split at h
      · cases h
      · cases h
      · next hasleep =>
        cases h
        exact .wakeOne p ⟨k, hk⟩ c hq at_ hasleep
      · next h1 h2 h3 =>
        cases h
        refine .wakeSkip p ⟨k, hk⟩ c at_ ?_
        cases hpc : s.pc ⟨k, hk⟩ <;> first | rfl | contradiction
  · next hk =>
    cases h
    exact .wakeEnd p k (at_.imp And.left And.left) (by omega)

/-- A change of program point between points of the same kind. -/
theorem move_of_goto {c' : PC} (hpc : s.pc p = c)
    (h : some (Event.tau, s.goto p c') = some (e, s'))
    (lock : c'.holdsLock = c.holdsLock) (active : c'.active = c.active)
    (committer : c'.committer = c.committer)
    (cleared : c'.cleared = true → c.cleared = true ∨ s.lh = [])
    (waiting : c'.waiting = true → c.waiting = true ∨ s.Full)
    (published : c'.published = true → c.published = true ∨ s.lh = [])
    (notWaking : ∀ k, c ≠ .commitWake k) (notPanic : c' ≠ .panic "log.committing") :
    Move s e s' := by
  cases h
  subst hpc
  exact .quiet p c' .tau lock active committer cleared waiting notWaking notPanic
    (Or.inl ⟨rfl, published⟩)

variable {size : Nat} {t₁ t₂ : List (Event N)}

theorem move_of_run (h : run size p s = some (e, s')) : Move s e s' := by
  unfold run at h
  generalize hpc : s.pc p = c at h
  cases c with
  | out | inOp | asleep | panic _ => cases h
  | beginAcquire | woken | logAcquire _ | endAcquire | commitAcquire =>
    apply move_of_acquire h
    all_goals first | rw [hpc]; rfl | rfl | nofun
  | beginTest =>
    dsimp only at h
    split at h
    · next hc =>
      exact move_of_goto hpc h rfl rfl rfl nofun (fun _ => Or.inr (Or.inl hc)) nofun nofun nofun
    · next hc =>
      split at h
      · next hf =>
        exact move_of_goto hpc h rfl rfl rfl nofun (fun _ => Or.inr (Or.inr hf)) nofun nofun nofun
      · next hf =>
        cases h
        exact .begin p hpc (by rintro (h | h) <;> contradiction)
  | sleepLocked =>
    cases h
    exact .sleep p hpc
  | sleepUnlocked =>
    exact move_of_goto hpc h rfl rfl rfl nofun (fun _ => Or.inl rfl) nofun nofun nofun
  | logTest b =>
    dsimp only at h
    split at h
    · exact move_of_goto hpc h rfl rfl rfl nofun nofun nofun nofun (by simp)
    · split at h
      · exact move_of_goto hpc h rfl rfl rfl nofun nofun nofun nofun (by simp)
      · cases h
        exact .log p b hpc
  | endTest =>
    dsimp only at h
    split at h
    · next hc =>
      cases h
      exact .endPanic p hpc hc
    · split at h
      · next hl =>
        cases h
        exact .endLast p hpc hl
      · next hm =>
        cases h
        exact .endMore p hpc hm
  | endWake k =>
    exact move_of_wakeup h (Or.inl ⟨hpc, rfl⟩)
  | commitTest =>
    dsimp only at h
    split at h
    · exact move_of_goto hpc h rfl rfl rfl nofun nofun nofun nofun nofun
    · next hlen =>
      have hnil : s.lh = [] := length_eq_zero_iff.mp (by omega)
      exact move_of_goto hpc h rfl rfl rfl (fun _ => Or.inr hnil) nofun (fun _ => Or.inr hnil)
        nofun nofun
  | writeLog tail =>
    dsimp only at h
    split at h <;> exact move_of_goto hpc h rfl rfl rfl nofun nofun nofun nofun nofun
  | writeHead =>
    cases h
    refine .quiet p (.install 0) (.commit s.lh) ?_ ?_ ?_ nofun nofun ?_ nofun (Or.inr ⟨hpc, rfl⟩)
    all_goals rw [hpc]
    all_goals first | rfl | nofun
  | install tail =>
    dsimp only at h
    split at h <;>
      exact move_of_goto hpc h rfl rfl rfl nofun nofun (fun _ => Or.inl rfl) nofun nofun
  | clear =>
    cases h
    exact .clear p hpc
  | clearHead =>
    exact move_of_goto hpc h rfl rfl rfl (fun _ => Or.inl rfl) nofun (fun _ => Or.inl rfl)
      nofun nofun
  | commitDone =>
    cases h
    exact .done p hpc
  | commitWake k =>
    exact move_of_wakeup h (Or.inr ⟨hpc, rfl⟩)

theorem move_of_exec {a : Action N} (h : exec size a s = some (e, s')) : Move s e s' := by
  cases a with
  | run p => exact move_of_run h
  | begin_op p | log_write p b | end_op p | kill p =>
    obtain ⟨hpc, h⟩ := Option.ite_none_right_eq_some.mp h
    exact move_of_goto hpc h rfl rfl rfl nofun nofun nofun nofun nofun

/-- What holds in every reachable state. -/
structure Inv (s : State N) : Prop where
  lock : Guards PC.holdsLock s.lock s.pc
  outstanding : s.outstanding = count s.pc (fun c => c.active = true)
  /-- `committing` is set by the one process that commits. -/
  committing : s.committing = true ↔ ∃ p, (s.pc p).committer = true
  one : ∀ p q, (s.pc p).committer = true → (s.pc q).committer = true → p = q
  /-- A commit runs while no operation is outstanding. -/
  alone : s.committing = true → s.outstanding = 0
  cleared : ∀ p, (s.pc p).cleared = true → s.lh = []
  /-- An idle log has an empty header, so `begin_op` does not sleep on it. -/
  idle : s.committing = false → s.outstanding = 0 → s.lh = []
  /-- A sleeper is waiting for an operation or a commit to end, or the
      `wakeup` that follows the commit has yet to reach it. -/
  waiting : ∀ q, (s.pc q).waiting = true →
    0 < s.outstanding ∨ s.committing = true ∨ ∃ p k, s.pc p = .commitWake k ∧ k ≤ q.val
  noPanic : ∀ p, s.pc p ≠ .panic "log.committing"

theorem inv_init : Inv (init : State N) where
  lock := by intro p; simp [init, PC.holdsLock]
  outstanding := by
    have : count (init : State N).pc (fun c => c.active = true) = 0 :=
      count_eq_zero.mpr fun _ => by simp [init, PC.active]
    rw [this]; rfl
  committing := by simp [init, PC.committer]
  one := by simp [init, PC.committer]
  alone := nofun
  cleared := fun _ _ => rfl
  idle := fun _ _ => rfl
  waiting := by simp [init, PC.waiting]
  noPanic := by simp [init]

namespace Inv

variable {s : State N} {p q : Fin N} {c : PC}

variable (h : Inv s)
include h

theorem outstanding_nonneg : 0 ≤ s.outstanding := by
  rw [h.outstanding]; exact Int.natCast_nonneg _

theorem outstanding_pos (hp : (s.pc p).active = true) : 0 < s.outstanding := by
  rw [h.outstanding]
  exact Int.natCast_pos.mpr (count_pos.mpr ⟨p, hp⟩)

theorem not_committing (hp : (s.pc p).active = true) : s.committing = false := by
  cases hc : s.committing with
  | false => rfl
  | true => have := h.alone hc; have := h.outstanding_pos hp; omega

theorem committing_of (hp : (s.pc p).committer = true) : s.committing = true :=
  h.committing.mpr ⟨p, hp⟩

/-- `begin_op` sleeps only while something will wake it. -/
theorem busy_of_full (hf : s.Full) : 0 < s.outstanding ∨ s.committing = true := by
  have hM : MAXOPBLOCKS = 10 := rfl
  have hL : LOGSIZE = 30 := rfl
  rcases hf with hc | hf
  · exact Or.inr hc
  · cases hc : s.committing with
    | true => exact Or.inr rfl
    | false =>
      left
      by_contra hn
      have h0 : s.outstanding = 0 := by have := h.outstanding_nonneg; omega
      have hnil := h.idle hc h0
      rw [h0, hnil, hM, hL] at hf
      simp at hf

end Inv

/-- A classification of program points that the move does not change. -/
theorem class_goto (f : PC → Bool) (h : f c = f (s.pc p))
    (q : Fin N) : f ((s.goto p c).pc q) = f (s.pc q) := update_proj h q

/-- Program points the move does not touch, or that are its target. -/
theorem class_goto_imp {f : PC → Bool}
    (h : f ((s.goto p c).pc q) = true) : f (s.pc q) = true ∨ (q = p ∧ f c = true) := by
  rcases update_cases (f · = true) h with hq | ⟨-, hq⟩
  · exact Or.inr hq
  · exact Or.inl hq

namespace Inv

variable {s : State N} {p : Fin N} {c : PC}

variable (h : Inv s)
include h

theorem committing_goto (hc : c.committer = (s.pc p).committer) :
    s.committing = true ↔ ∃ q, ((s.goto p c).pc q).committer = true := by
  simp only [class_goto PC.committer hc]
  exact h.committing

theorem one_goto (hc : c.committer = (s.pc p).committer) (q r : Fin N)
    (hq : ((s.goto p c).pc q).committer = true) (hr : ((s.goto p c).pc r).committer = true) :
    q = r := by
  rw [class_goto PC.committer hc] at hq hr
  exact h.one q r hq hr

theorem cleared_goto (hc : c.cleared = true → (s.pc p).cleared = true ∨ s.lh = [])
    (q : Fin N) (hq : ((s.goto p c).pc q).cleared = true) : s.lh = [] := by
  rcases class_goto_imp hq with hq | ⟨-, hq⟩
  · exact h.cleared q hq
  · exact (hc hq).elim (h.cleared p) id

theorem noPanic_goto (hc : c ≠ .panic "log.committing") (q : Fin N) :
    (s.goto p c).pc q ≠ .panic "log.committing" :=
  update_one (motive := fun _ c => c ≠ PC.panic "log.committing") q hc fun q _ => h.noPanic q

theorem outstanding_goto (hc : c.active = (s.pc p).active) :
    s.outstanding = count (s.goto p c).pc (fun c => c.active = true) := by
  rw [h.outstanding]
  exact congrArg Nat.cast (count_update_iff (by rw [hc])).symm

/-- The process ends its operation. -/
theorem outstanding_end (hp : (s.pc p).active = true) (hc : ¬ c.active = true) :
    s.outstanding - 1 = count (s.goto p c).pc (fun c => c.active = true) := by
  have hcount : count (s.goto p c).pc (fun c => c.active = true) + 1 = _ :=
    count_update_false (P := fun c => PC.active c = true) hp hc
  rw [h.outstanding, ← hcount]
  simp

end Inv

/-- A move that changes neither the kind of the program point nor the shared
    fields other than `log.lock`. -/
theorem Inv.goto (h : Inv s) {l : Option (Fin N)}
    (lock : Guards PC.holdsLock l (Function.update s.pc p c))
    (active : c.active = (s.pc p).active) (committer : c.committer = (s.pc p).committer)
    (cleared : c.cleared = true → (s.pc p).cleared = true ∨ s.lh = [])
    (waiting : c.waiting = true → (s.pc p).waiting = true ∨ s.Full)
    (wake : ∀ k (q : Fin N), s.pc p = .commitWake k → k ≤ q → (s.pc q).waiting = true →
      ∃ r k', (s.goto p c).pc r = .commitWake k' ∧ k' ≤ q)
    (notPanic : c ≠ .panic "log.committing") : Inv { s.goto p c with lock := l } where
  lock := lock
  outstanding := h.outstanding_goto active
  committing := h.committing_goto committer
  one := h.one_goto committer
  alone := h.alone
  cleared := h.cleared_goto cleared
  idle := h.idle
  waiting := by
    intro q hq
    show 0 < s.outstanding ∨ s.committing = true ∨ _
    have hold : (s.pc q).waiting = true ∨ s.Full := by
      rcases class_goto_imp hq with hw | ⟨rfl, hw⟩
      · exact Or.inl hw
      · exact waiting hw
    rcases hold with hw | hf
    · rcases h.waiting q hw with ho | hc | ⟨r, k, hr, hk⟩
      · exact Or.inl ho
      · exact Or.inr (Or.inl hc)
      · right; right
        by_cases hrp : r = p
        · subst hrp
          exact wake k q hr hk hw
        · exact ⟨r, k, by rw [← hr]; exact State.goto_ne s c hrp, hk⟩
    · exact (h.busy_of_full hf).imp id Or.inl
  noPanic := h.noPanic_goto notPanic

/-- A round of `wakeup` that finds nobody to wake. -/
theorem Inv.wakeSkip (h : Inv s)
    (at_ : s.pc p = .endWake q ∧ c = .endWake (q + 1) ∨
      s.pc p = .commitWake q ∧ c = .commitWake (q + 1))
    (notWaiting : (s.pc q).waiting = false) : Inv (s.goto p c) := by
  rcases at_ with ⟨hpc, rfl⟩ | ⟨hpc, rfl⟩
  · refine h.goto (h.lock.keep (by rw [hpc]; rfl)) (by rw [hpc]; rfl) (by rw [hpc]; rfl)
      nofun nofun (fun k _ hk => ?_) nofun
    rw [hpc] at hk; cases hk
  · refine h.goto (h.lock.keep (by rw [hpc]; rfl)) (by rw [hpc]; rfl) (by rw [hpc]; rfl)
      nofun nofun (fun k r hk hkr hr => ?_) nofun
    -- the loop passes q, which is not waiting
    rw [hpc] at hk
    obtain rfl : q.val = k := PC.commitWake.inj hk
    refine ⟨p, q + 1, State.goto_self s p _, ?_⟩
    have hne : r ≠ q := by rintro rfl; rw [notWaiting] at hr; cases hr
    have : r.val ≠ q.val := fun e => hne (Fin.ext e)
    omega

/-- Every step keeps the invariant. -/
theorem Inv.move (h : Inv s) (hm : Move s e s') : Inv s' := by
  cases hm with
  | quiet p c e lock active committer cleared waiting notWaking notPanic =>
    exact h.goto (h.lock.keep lock) active committer cleared waiting
      (fun k _ hk => absurd hk (notWaking k)) notPanic
  | acquire p c free before lock active committer cleared _ waiting notPanic =>
    refine h.goto (h.lock.acquire free lock) active committer (fun hc => Or.inl (cleared ▸ hc))
      (fun hw => by rw [waiting] at hw; cases hw) (fun k _ hk => ?_) notPanic
    rw [hk] at before; cases before
  | sleep p hpc =>
    refine h.goto (h.lock.release (by rw [hpc]; rfl) rfl) (by rw [hpc]; rfl) (by rw [hpc]; rfl)
      nofun (fun _ => Or.inl (by rw [hpc]; rfl)) (fun k _ hk => ?_) nofun
    rw [hpc] at hk; cases hk
  | wakeSkip p q c at_ notWaiting => exact h.wakeSkip at_ notWaiting
  | wakeOne p q c ne at_ asleep =>
    -- q is made runnable, then the round goes on as if it had not been asleep
    have hq : Inv (s.goto q .woken) := by
      refine h.goto (h.lock.keep (by rw [asleep]; rfl)) (by rw [asleep]; rfl) (by rw [asleep]; rfl)
        nofun nofun (fun k _ hk => ?_) nofun
      rw [asleep] at hk; cases hk
    refine hq.wakeSkip ?_ (by rw [State.goto_self]; rfl)
    rwa [State.goto_ne s _ ne.symm]
  | wakeEnd p k at_ past =>
    refine h.goto (h.lock.release ?_ rfl) ?_ ?_ nofun nofun (fun k' r hk hkr _ => ?_) nofun
    · rcases at_ with hpc | hpc <;> rw [hpc] <;> rfl
    · rcases at_ with hpc | hpc <;> rw [hpc] <;> rfl
    · rcases at_ with hpc | hpc <;> rw [hpc] <;> rfl
    · -- the loop is past every process
      rcases at_ with hpc | hpc <;> rw [hpc] at hk
      · cases hk
      · obtain rfl : k = k' := PC.commitWake.inj hk
        omega
  | begin p hpc room =>
    refine ⟨h.lock.release (by rw [hpc]; rfl) rfl, ?_, h.committing_goto (by rw [hpc]; rfl),
      h.one_goto (by rw [hpc]; rfl), fun hc => absurd (Or.inl hc) room, h.cleared_goto nofun,
      fun _ h0 => ?_, fun q _ => Or.inl ?_, h.noPanic_goto nofun⟩
    · have := count_update_true (f := s.pc) (i := p) (P := fun c => c.active = true)
        (a := .inOp) (by rw [hpc]; nofun) rfl
      show s.outstanding + 1 = _
      rw [h.outstanding]
      exact_mod_cast this.symm
    · have h0' : s.outstanding + 1 = 0 := h0
      have := h.outstanding_nonneg
      omega
    · show 0 < s.outstanding + 1
      have := h.outstanding_nonneg
      omega
  | log p b hpc =>
    have hact : (s.pc p).active = true := by rw [hpc]; rfl
    have hpos := h.outstanding_pos hact
    have hcom := h.not_committing hact
    refine ⟨h.lock.release (by rw [hpc]; rfl) rfl, h.outstanding_goto (by rw [hpc]; rfl),
      h.committing_goto (by rw [hpc]; rfl), h.one_goto (by rw [hpc]; rfl), h.alone, fun q hq => ?_,
      fun _ h0 => ?_, fun _ _ => Or.inl hpos, h.noPanic_goto nofun⟩
    · -- nobody commits while an operation is active
      have hq' : (s.pc q).committer = true := by
        rcases class_goto_imp hq with hq | ⟨-, hq⟩
        · cases hc : s.pc q <;> rw [hc] at hq <;> first | rfl | cases hq
        · cases hq
      rw [h.committing_of hq'] at hcom
      cases hcom
    · have h0' : s.outstanding = 0 := h0
      omega
  | endLast p hpc last =>
    have hcom := h.not_committing (p := p) (by rw [hpc]; rfl)
    have hnone : ∀ q, (s.pc q).committer = false := by
      intro q
      cases hq : (s.pc q).committer with
      | false => rfl
      | true => rw [h.committing_of hq] at hcom; cases hcom
    have hcommitter : ∀ q, ((s.goto p .commitTest).pc q).committer = true → q = p := by
      intro q hq
      rcases class_goto_imp hq with hq | ⟨hq, -⟩
      · rw [hnone q] at hq; cases hq
      · exact hq
    refine ⟨h.lock.release (by rw [hpc]; rfl) rfl, h.outstanding_end (by rw [hpc]; rfl) nofun,
      ⟨fun _ => ⟨p, ?_⟩, fun _ => rfl⟩,
      fun q r hq hr => (hcommitter q hq).trans (hcommitter r hr).symm, fun _ => last,
      h.cleared_goto nofun, nofun, fun _ _ => Or.inr (Or.inl rfl), h.noPanic_goto nofun⟩
    show ((s.goto p .commitTest).pc p).committer = true
    rw [State.goto_self]
    rfl
  | endMore p hpc more =>
    have hpos := h.outstanding_pos (p := p) (by rw [hpc]; rfl)
    have hcom := h.not_committing (p := p) (by rw [hpc]; rfl)
    refine ⟨h.lock.keep (by rw [hpc]; rfl), h.outstanding_end (by rw [hpc]; rfl) nofun,
      h.committing_goto (by rw [hpc]; rfl), h.one_goto (by rw [hpc]; rfl), fun hc => ?_,
      h.cleared_goto nofun, fun _ h0 => ?_, fun q _ => Or.inl ?_, h.noPanic_goto nofun⟩
    · have hc' : s.committing = true := hc
      rw [hcom] at hc'; cases hc'
    · exact absurd h0 more
    · show 0 < s.outstanding - 1
      omega
  | endPanic p hpc busy =>
    rw [h.not_committing (by rw [hpc]; rfl)] at busy
    cases busy
  | clear p hpc =>
    have hcom := h.committing_of (p := p) (by rw [hpc]; rfl)
    exact ⟨h.lock.keep (by rw [hpc]; rfl), h.outstanding_goto (by rw [hpc]; rfl),
      h.committing_goto (by rw [hpc]; rfl), h.one_goto (by rw [hpc]; rfl), h.alone, fun _ _ => rfl,
      fun _ _ => rfl, fun _ _ => Or.inr (Or.inl hcom), h.noPanic_goto nofun⟩
  | done p hpc =>
    have hself : (s.pc p).committer = true := by rw [hpc]; rfl
    have hnone : ∀ q, ((s.goto p (.commitWake 0)).pc q).committer = false := by
      intro q
      cases hq : ((s.goto p (.commitWake 0)).pc q).committer with
      | false => rfl
      | true =>
        obtain ⟨hqp, hq⟩ := update_other (PC.committer · = true) hq nofun
        exact absurd (h.one q p hq hself) hqp
    refine ⟨h.lock.keep (by rw [hpc]; rfl), h.outstanding_goto (by rw [hpc]; rfl),
      ⟨nofun, fun ⟨q, hq⟩ => ?_⟩, fun q _ hq => ?_, nofun, h.cleared_goto nofun,
      fun _ _ => h.cleared p (by rw [hpc]; rfl), fun q _ =>
        Or.inr (Or.inr ⟨p, 0, State.goto_self s p _, Nat.zero_le _⟩), h.noPanic_goto nofun⟩
    · exact absurd (hnone q) (by rw [show _ = true from hq]; nofun)
    · exact absurd (hnone q) (by rw [show _ = true from hq]; nofun)

/-! ## 3. Traces -/

/-- The blocks logged since the last commit, most recent first. -/
def pending (tr : List (Event N)) : List Nat :=
  tr.foldl (fun bs e => match e with
    | .logged _ b => b :: bs
    | .commit _ => []
    | _ => bs) []

/-- Whether the last operation that `p` began has not ended. -/
def isOpen (p : Fin N) (tr : List (Event N)) : Bool :=
  tr.foldl (fun o e => if e = .began p then true else if e = .ended p then false else o) false

theorem pending_snoc (tr : List (Event N)) (e : Event N) :
    pending (tr ++ [e]) = match e with
      | .logged _ b => b :: pending tr
      | .commit _ => []
      | _ => pending tr := by
  simp only [pending, foldl_append, foldl_cons, foldl_nil]

theorem isOpen_snoc (p : Fin N) (tr : List (Event N)) (e : Event N) :
    isOpen p (tr ++ [e]) =
      if e = .began p then true else if e = .ended p then false else isOpen p tr := by
  simp only [isOpen, foldl_append, foldl_cons, foldl_nil]

/-- A block logged since the last commit is pending. -/
theorem mem_pending {b : Nat} (h : .logged p b ∈ t₂)
    (hno : ∀ bs, .commit bs ∉ t₂) : b ∈ pending (t₁ ++ t₂) := by
  induction t₂ using reverseRecOn with
  | nil => cases h
  | append_singleton t e ih =>
    rw [← append_assoc, pending_snoc]
    have hno' : ∀ bs, .commit bs ∉ t := fun bs hb => hno bs (mem_append_left _ hb)
    rcases mem_append.mp h with hin | hlast
    · have := ih hin hno'
      cases e with
      | commit bs => exact absurd (mem_append_right _ (mem_singleton_self _)) (hno bs)
      | logged q b' => exact mem_cons_of_mem _ this
      | began _ | ended _ | tau => exact this
    · obtain rfl := mem_singleton.mp hlast
      exact mem_cons_self

theorem isOpen_of_began (h : .ended p ∉ t₂) : isOpen p (t₁ ++ .began p :: t₂) = true := by
  induction t₂ using reverseRecOn with
  | nil => rw [isOpen_snoc, if_pos rfl]
  | append_singleton t e ih =>
    have hne : e ≠ .ended p := by
      rintro rfl
      exact h (mem_append_right _ (mem_singleton_self _))
    rw [← cons_append, ← append_assoc, isOpen_snoc, if_neg hne,
      ih (fun hm => h (mem_append_left _ hm)), ite_self]

theorem Move.commit_inv {bs : List Nat} (h : Move s (.commit bs) s') :
    bs = s.lh ∧ ∃ p, s.pc p = .writeHead := by
  cases h with
  | quiet p c e _ _ _ _ _ _ _ event =>
    rcases event with ⟨he, -⟩ | ⟨hpc, he⟩
    · cases he
    · exact ⟨Event.commit.inj he, p, hpc⟩

/-- Only its own `end_op` makes a process inactive. -/
theorem Move.active (h : Move s e s')
    (hq : (s.pc q).active = true) (he : e ≠ .ended q) : (s'.pc q).active = true := by
  have keep : ∀ {p : Fin N} {c : PC}, c.active = (s.pc p).active →
      ((s.goto p c).pc q).active = true := fun hc => by rw [class_goto PC.active hc]; exact hq
  have other : ∀ {p : Fin N} {c : PC}, p ≠ q → ((s.goto p c).pc q).active = true :=
    fun hp => by rw [State.goto_ne s _ hp.symm]; exact hq
  have notAt : ∀ {p : Fin N} {c : PC}, s.pc p = c → c.active = false → p ≠ q := by
    rintro p c hpc hc rfl
    rw [hpc, hc] at hq
    cases hq
  cases h with
  | quiet p c e _ active | acquire p c _ _ _ active => exact keep active
  | sleep p hpc | begin p hpc _ | clear p hpc | done p hpc => exact other (notAt hpc rfl)
  | log p b hpc => exact keep (by rw [hpc]; rfl)
  | endLast p | endMore p | endPanic p => exact other (fun e => he (by rw [e]))
  | wakeSkip p r c at_ _ =>
    rcases at_ with ⟨hpc, -⟩ | ⟨hpc, -⟩ <;> exact other (notAt hpc rfl)
  | wakeOne p r c _ at_ asleep =>
    have hr : r ≠ q := notAt asleep rfl
    have hp : p ≠ q := by rcases at_ with ⟨hpc, -⟩ | ⟨hpc, -⟩ <;> exact notAt hpc rfl
    rw [State.goto_ne _ _ hp.symm]
    exact other hr
  | wakeEnd p k at_ _ =>
    rcases at_ with hpc | hpc <;> exact other (notAt hpc rfl)

theorem Move.active_of_began (h : Move s (.began p) s') : (s'.pc p).active = true := by
  cases h with
  | quiet q c e _ _ _ _ _ _ _ event => rcases event with ⟨he, -⟩ | ⟨-, he⟩ <;> cases he
  | begin p hpc _ =>
    show ((s.goto p .inOp).pc p).active = true
    rw [State.goto_self]
    rfl

/-- What holds along every run: the events of the run against its state. -/
structure TraceInv (tr : List (Event N)) (s : State N) : Prop where
  inv : Inv s
  pending : ∀ b ∈ pending tr, b ∈ s.lh
  published : ∀ p, (s.pc p).published = true → GroupCommit.pending tr = []
  isOpen : ∀ p, isOpen p tr = true → (s.pc p).active = true

theorem PC.committer_of_published (h : c.published = true) : c.committer = true := by
  cases c <;> first | rfl | cases h

theorem PC.committer_of_inCommit (h : c.inCommit = true) : c.committer = true := by
  cases c <;> first | rfl | cases h

theorem PC.active_of_inLogWrite (h : c.inLogWrite = true) : c.active = true := by
  cases c <;> first | rfl | cases h

variable {tr : List (Event N)}

/-- A move that logs nothing and keeps the header. -/
theorem TraceInv.goto (h : TraceInv tr s)
    (hc : c.published = true → (s.pc p).published = true ∨ s.lh = []) (q : Fin N)
    (hq : ((s.goto p c).pc q).published = true) : GroupCommit.pending tr = [] := by
  rcases class_goto_imp hq with hq | ⟨-, hq⟩
  · exact h.published q hq
  · rcases hc hq with hp | hnil
    · exact h.published p hp
    · apply eq_nil_iff_forall_not_mem.mpr
      intro b hb
      have := h.pending b hb
      rw [hnil] at this
      cases this

theorem mem_addBlock {lh : List Nat} {b b' : Nat} : b' ∈ addBlock lh b ↔ b' = b ∨ b' ∈ lh := by
  unfold addBlock
  split
  · next hb => exact ⟨Or.inr, fun h => h.elim (fun e => e ▸ hb) id⟩
  · rw [mem_append, mem_singleton, or_comm]

theorem TraceInv.step (h : TraceInv tr s) (hm : Move s e s') : TraceInv (tr ++ [e]) s' := by
  have hopen : ∀ p, GroupCommit.isOpen p (tr ++ [e]) = true → (s'.pc p).active = true := by
    intro p hp
    rw [isOpen_snoc] at hp
    split at hp
    · next he => subst he; exact hm.active_of_began
    · split at hp
      · cases hp
      · next he => exact hm.active (h.isOpen p hp) he
  refine ⟨h.inv.move hm, ?_, ?_, hopen⟩
  · -- the header keeps what is pending, unless a commit has just taken it
    rw [pending_snoc]
    cases hm with
    | quiet p c e _ _ _ _ _ _ _ event =>
      rcases event with ⟨rfl, -⟩ | ⟨-, rfl⟩
      · exact h.pending
      · nofun
    | log p b hpc =>
      intro b' hb'
      apply mem_addBlock.mpr
      rcases mem_cons.mp hb' with rfl | hb'
      · exact Or.inl rfl
      · exact Or.inr (h.pending b' hb')
    | clear p hpc =>
      intro b' hb'
      have hnil := h.published p (by rw [hpc]; rfl)
      rw [show GroupCommit.pending tr = [] from hnil] at hb'
      exact hb'
    | acquire | sleep | begin | endLast | endMore | endPanic | done | wakeSkip | wakeOne
    | wakeEnd => exact h.pending
  · rw [pending_snoc]
    cases hm with
    | quiet p c e _ _ _ _ _ _ _ event =>
      rcases event with ⟨rfl, hpub⟩ | ⟨-, rfl⟩
      · exact h.goto hpub
      · exact fun _ _ => rfl
    | acquire p c _ _ _ _ _ _ published _ _ => exact h.goto (fun hc => Or.inl (published ▸ hc))
    | log p b hpc =>
      -- nobody is in a commit while p logs
      intro q hq
      have hq' : (s.pc q).published = true := by
        rcases class_goto_imp hq with hq | ⟨-, hq⟩
        · exact hq
        · cases hq
      have hcom := h.inv.not_committing (p := p) (by rw [hpc]; rfl)
      rw [h.inv.committing_of (PC.committer_of_published hq')] at hcom
      cases hcom
    | clear p hpc => exact h.goto (fun _ => Or.inl (by rw [hpc]; rfl))
    | sleep | begin | endLast | endMore | endPanic | done => exact h.goto nofun
    | wakeSkip p q c at_ _ =>
      rcases at_ with ⟨-, rfl⟩ | ⟨-, rfl⟩ <;> exact h.goto nofun
    | wakeOne p q c ne at_ asleep =>
      intro r hr
      have hr' : (((s.goto q .woken)).pc r).published = true := by
        rcases class_goto_imp hr with hr | ⟨-, hr⟩
        · exact hr
        · rcases at_ with ⟨-, rfl⟩ | ⟨-, rfl⟩ <;> cases hr
      exact h.goto (c := .woken) nofun r hr'
    | wakeEnd p k at_ _ => exact h.goto nofun

theorem traceInv (h : Trace (system N size) tr s) : TraceInv tr s := by
  apply h.invariant (I := TraceInv)
  · rintro s rfl
    exact ⟨inv_init, fun _ hb => (nomatch hb), fun _ _ => rfl, fun _ ho => (nomatch ho)⟩
  · rintro tr s e s' ih ⟨a, ha⟩
    exact ih.step (move_of_exec ha)

/-- **Group commit.** In every run: `commit` runs only while no operation is
    outstanding, and nobody is in `log_write` while `committing` is set;
    `panic("log.committing")` is not reached; the first commit after an
    operation began comes after that operation ended and lists every block it
    logged; and while `log.lock` is free, nobody sleeps on an idle log. -/
theorem group_commit {size : Nat} {tr : List (Event N)} {s : State N}
    (h : Trace (system N size) tr s) :
    (∀ p, (s.pc p).inCommit = true → s.outstanding = 0) ∧
    (s.committing = true → ∀ p, (s.pc p).inLogWrite = false) ∧
    (∀ p, s.pc p ≠ .panic "log.committing") ∧
    (∀ t₁ t₂ t₃ p bs, tr = t₁ ++ .began p :: t₂ ++ .commit bs :: t₃ →
      (∀ bs', .commit bs' ∉ t₂) → .ended p ∈ t₂ ∧ ∀ b, .logged p b ∈ t₂ → b ∈ bs) ∧
    (s.lock = none → ∀ p, s.pc p = .asleep → 0 < s.outstanding ∨ s.committing = true) := by
  have hinv := (traceInv h).inv
  refine ⟨fun p hp => ?_, fun hc p => ?_, hinv.noPanic, ?_, fun hl p hp => ?_⟩
  · exact hinv.alone (hinv.committing_of (PC.committer_of_inCommit hp))
  · cases hp : (s.pc p).inLogWrite with
    | false => rfl
    | true =>
      rw [hinv.not_committing (PC.active_of_inLogWrite hp)] at hc
      cases hc
  · rintro t₁ t₂ t₃ p bs rfl hno
    -- the state in which the header is written
    obtain ⟨s0, s1, h0, a, ha⟩ := h.step_of_append
    have hinv0 := traceInv h0
    obtain ⟨rfl, q, hq⟩ := (move_of_exec ha).commit_inv
    refine ⟨?_, fun b hb => ?_⟩
    · by_contra hend
      have hact := hinv0.isOpen p (isOpen_of_began hend)
      have hcom := hinv0.inv.committing_of (p := q) (by rw [hq]; rfl)
      rw [hinv0.inv.not_committing hact] at hcom
      cases hcom
    · apply hinv0.pending
      rw [← singleton_append, ← append_assoc]
      exact mem_pending hb hno
  · rcases hinv.waiting p (by rw [hp]; rfl) with ho | hc | ⟨q, k, hq, -⟩
    · exact Or.inl ho
    · exact Or.inr hc
    · have := hinv.lock.free hl q
      rw [hq] at this
      cases this

/-- One operation that logs block 5, up to the header write of its commit. -/
def oneOp : List (Action 2) :=
  [.begin_op 0, .run 0, .run 0, .log_write 0 5, .run 0, .run 0, .end_op 0, .run 0, .run 0,
    .run 0, .run 0, .run 0, .run 0]

/-- The events of `oneOp` between the begin and the commit. -/
def oneOpEvents : List (Event 2) :=
  [.tau, .tau, .logged 0 5, .tau, .tau, .ended 0, .tau, .tau, .tau]

theorem group_commit_oneOp :
    (replay (exec 31) oneOp (init : State 2)).map Prod.fst =
      some ([.tau, .tau] ++ .began 0 :: oneOpEvents ++ [.commit [5]]) ∧
    .ended 0 ∈ oneOpEvents ∧ ∀ b, .logged 0 b ∈ oneOpEvents → b ∈ [5] := by
  have hrun : (replay (exec 31) oneOp (init : State 2)).map Prod.fst =
      some ([.tau, .tau] ++ .began 0 :: oneOpEvents ++ [.commit [5]]) := by decide
  obtain ⟨⟨tr, s⟩, hrep, htr⟩ := Option.map_eq_some_iff.mp hrun
  have htrace : Trace (system 2 31) tr s := trace_of_replay rfl hrep
  exact ⟨hrun, (group_commit htrace).2.2.2.1 [.tau, .tau] oneOpEvents [] 0 [5] htr
    (by simp [oneOpEvents])⟩

end NoviceKernel.GroupCommit
