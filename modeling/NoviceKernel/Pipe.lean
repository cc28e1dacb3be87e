import NoviceKernel.Lib.Count
import NoviceKernel.Lib.LockPhase
import NoviceKernel.Lib.Ring
import NoviceKernel.Lib.TransitionSystem
import NoviceKernel.Vm

/-! # Pipes (`pipe.c`): `pipewrite`, `piperead`, `pipeclose`

    Any number of processes read and write one pipe, close its ends and kill
    each other.  Each is at a program point of one of the functions; a step is
    one round of a loop, or what lies between two points where another process
    can get in between.

    1. **Model**: program points, the fields of `struct pipe`, the steps.
    2. **Invariant**: the ring stands for the bytes put and not yet taken; a
       sleeper has a reason to sleep, or the process that holds `pi->lock` has
       yet to reach it with its `wakeup`.
    3. **FIFO**: what is taken out is a prefix of what was put in.
    4. **Wakeups**: nobody sleeps without a reason, unless a writer that was
       killed has left without a `wakeup` for the bytes it had put.
    5. **Delivery**: `piperead` stores the bytes it takes, unless it meets a page
       it cannot write.

    `sleep` takes the sleeper's own `p->lock` before it releases `pi->lock`; a
    `wakeup` or a `kill` that arrives in between waits until it is asleep. -/

namespace NoviceKernel.Pipe

open TransitionSystem LockPhase Function Count List Option Nat

/-! ## 1. Model -/

def PIPESIZE : Nat := 512

/-- What a process sleeps on. -/
inductive Chan where
  | nread
  | nwrite
  deriving DecidableEq

/-- Where a process goes on after `sleep`. -/
inductive Back where
  | write (i : Nat) (n : Int)
  | read (n : Int)
  deriving DecidableEq

/-- Where a process is. -/
inductive PC where
  | out
  /-- `pipewrite(pi, addr, n)`: about to `acquire(&pi->lock)`. -/
  | writeAcquire (n : Int)
  /-- At the head of the `while`; `fresh`: a byte was put since the last
      `wakeup(&pi->nread)` of this call. -/
  | writeTest (i : Nat) (n : Int) (fresh : Bool)
  /-- The pipe is full: in `wakeup(&pi->nread)`, at process `k` of the table. -/
  | writeWake (k i : Nat) (n : Int)
  /-- `copyin` of byte `i`. -/
  | writeCopy (i : Nat) (n : Int) (fresh : Bool)
  /-- In the last `wakeup(&pi->nread)`, at process `k`; `i` will be returned. -/
  | writeDone (k i : Nat)
  /-- `piperead(pi, addr, n)`. -/
  | readAcquire (n : Int)
  | readTest (n : Int)
  /-- At the head of the `for`. -/
  | readCopy (i : Nat) (n : Int)
  /-- In `wakeup(&pi->nwrite)`, at process `k`. -/
  | readDone (k i : Nat)
  /-- `sleep`: holding `pi->lock` and `p->lock`. -/
  | sleepLocked (c : Chan) (b : Back)
  /-- `sleep`: `pi->lock` released, `p->lock` still held. -/
  | sleepUnlocked (c : Chan) (b : Back)
  | asleep (c : Chan) (b : Back)
  /-- Runnable again, about to reacquire `pi->lock`. -/
  | woken (b : Back)
  /-- `pipeclose(pi, writable)`. -/
  | closeAcquire (writable : Bool)
  | closeSet (writable : Bool)
  /-- In the `wakeup` of `pipeclose`, at process `k`. -/
  | closeWake (writable : Bool) (k : Nat)
  deriving DecidableEq

/-- `struct pipe` and the processes. -/
structure State (N : Nat) where
  /-- Holder of `pi->lock`. -/
  lock : Option (Fin N)
  data : Nat → UInt8
  nread : Nat
  nwrite : Nat
  readopen : Bool
  writeopen : Bool
  killed : Fin N → Bool
  pc : Fin N → PC

/-- What a step is seen to do. -/
inductive Event where
  | put (ch : UInt8)
  | took (ch : UInt8)
  /-- A writer that was killed returns without a `wakeup` for the bytes it has
      put, while a reader sleeps. -/
  | lost
  | tau
  deriving DecidableEq

inductive Action (N : Nat) where
  | pipewrite (p : Fin N) (n : Int)
  | piperead (p : Fin N) (n : Int)
  | pipeclose (p : Fin N) (writable : Bool)
  | kill (p : Fin N)
  /-- The next step of `p`; the byte that its `copyin` delivers, none if its
      `copyin` or `copyout` fails. -/
  | run (p : Fin N) (ch : Option UInt8)

variable {N : Nat}

namespace State

variable (s : State N)

/-- Move process `p` to program point `c`. -/
def goto (p : Fin N) (c : PC) : State N :=
  { s with pc := update s.pc p c }

/-- `acquire(&pi->lock)`: waits while the lock is held. -/
def acquire (p : Fin N) (c : PC) : Option (Event × State N) :=
  if s.lock = none then some (.tau, { s.goto p c with lock := some p }) else none

/-- `release(&pi->lock)`. -/
def release : State N := { s with lock := none }

/-- `pi->nwrite == pi->nread + PIPESIZE`. -/
def full : Bool := s.nwrite = (s.nread + PIPESIZE) % 2 ^ 32

/-- `pi->nread == pi->nwrite`. -/
def empty : Bool := s.nread = s.nwrite

/-- The flag of one end. -/
def isOpen (writable : Bool) : Bool := if writable then s.writeopen else s.readopen

/-- `pi->data[pi->nwrite++ % PIPESIZE] = ch`. -/
def put (ch : UInt8) : State N :=
  { s with data := update s.data (s.nwrite % PIPESIZE) ch, nwrite := (s.nwrite + 1) % 2 ^ 32 }

/-- `ch = pi->data[pi->nread++ % PIPESIZE]`, the byte. -/
def next : UInt8 := s.data (s.nread % PIPESIZE)

/-- `ch = pi->data[pi->nread++ % PIPESIZE]`, the state after it. -/
def take : State N := { s with nread := (s.nread + 1) % 2 ^ 32 }

end State

namespace PC

/-- Going to sleep or asleep on `c`. -/
def sleepsOn (c : Chan) : PC → Bool
  | sleepLocked c' _ | sleepUnlocked c' _ | asleep c' _ => c' = c
  | _ => false

/-- In `pipeclose(pi, writable)`, and that end is still open. -/
def closes (writable : Bool) : PC → Bool
  | closeAcquire w | closeSet w => w = writable
  | _ => false

/-- In an operation on the writable, or the readable, end of the pipe. -/
def uses (writable : Bool) : PC → Bool
  | writeAcquire _ | writeTest _ _ _ | writeWake _ _ _ | writeCopy _ _ _ | writeDone _ _ => writable
  | readAcquire _ | readTest _ | readCopy _ _ | readDone _ _ => !writable
  | sleepLocked _ b | sleepUnlocked _ b | asleep _ b | woken b =>
    match b with
    | .write _ _ => writable
    | .read _ => !writable
  | closeAcquire w | closeSet w => w = writable
  | out | closeWake _ _ => false

end PC

/-- One round of the loop of `wakeup(c)` run by `p`, at process `k`; `next` is
    the program point of the following round, `done` the state after the loop. -/
def wakeup (c : Chan) (s : State N) (p : Fin N) (k : Nat) (next : PC) (done : State N) :
    Option (Event × State N) :=
  if hk : k < N then
    let q : Fin N := ⟨k, hk⟩
    if q = p then some (.tau, s.goto p next)
    else match s.pc q with
      -- q->lock is held until q is asleep
      | .sleepLocked _ _ | .sleepUnlocked _ _ => none
      | .asleep c' b => if c' = c then some (.tau, (s.goto q (.woken b)).goto p next)
          else some (.tau, s.goto p next)
      | _ => some (.tau, s.goto p next)
  else some (.tau, done)

/-- The channel that `pipeclose` wakes. -/
def Chan.ofClose (writable : Bool) : Chan := if writable then .nread else .nwrite

/-- The point at which `sleep` returns. -/
def Back.point : Back → PC
  | .write i n => .writeTest i n false
  | .read n => .readTest n

/-- The next step of process `p`. -/
def run (p : Fin N) (ch : Option UInt8) (s : State N) : Option (Event × State N) :=
  match s.pc p with
  | .out | .asleep _ _ => none
  | .writeAcquire n => s.acquire p (.writeTest 0 n false)
  | .writeTest i n fresh =>
    if i < n then
      if s.readopen = false ∨ s.killed p = true then
        some (if fresh = true ∧ (List.finRange N).any fun q => (s.pc q).sleepsOn .nread then .lost
          else .tau,
          (s.goto p .out).release)
      else if s.full then some (.tau, s.goto p (.writeWake 0 i n))
      else some (.tau, s.goto p (.writeCopy i n fresh))
    else some (.tau, s.goto p (.writeDone 0 i))
  | .writeWake k i n =>
    wakeup .nread s p k (.writeWake (k + 1) i n) (s.goto p (.sleepLocked .nwrite (.write i n)))
  | .writeCopy i n _ =>
    match ch with
    | none => some (.tau, s.goto p (.writeDone 0 i))
    | some b => some (.put b, (s.put b).goto p (.writeTest (i + 1) n true))
  | .writeDone k i => wakeup .nread s p k (.writeDone (k + 1) i) (s.goto p .out).release
  | .readAcquire n => s.acquire p (.readTest n)
  | .readTest n =>
    if s.empty = true ∧ s.writeopen = true then
      if s.killed p then some (.tau, (s.goto p .out).release)
      else some (.tau, s.goto p (.sleepLocked .nread (.read n)))
    else some (.tau, s.goto p (.readCopy 0 n))
  | .readCopy i n =>
    if i < n then
      if s.empty then some (.tau, s.goto p (.readDone 0 i))
      else if ch = none then some (.took s.next, s.take.goto p (.readDone 0 i))
      else some (.took s.next, s.take.goto p (.readCopy (i + 1) n))
    else some (.tau, s.goto p (.readDone 0 i))
  | .readDone k i => wakeup .nwrite s p k (.readDone (k + 1) i) (s.goto p .out).release
  | .sleepLocked c b => some (.tau, (s.goto p (.sleepUnlocked c b)).release)
  | .sleepUnlocked c b => some (.tau, s.goto p (.asleep c b))
  | .woken b => s.acquire p b.point
  | .closeAcquire w => s.acquire p (.closeSet w)
  | .closeSet w =>
    some (.tau, { s.goto p (.closeWake w 0) with
      writeopen := if w then false else s.writeopen
      readopen := if w then s.readopen else false })
  | .closeWake w k => wakeup (.ofClose w) s p k (.closeWake w (k + 1)) (s.goto p .out).release

/-- The steps of the system. The reference counts of `file.c` see to it that an
    end is used while it is open, and closed once, when nobody uses it. -/
def exec : Action N → State N → Option (Event × State N)
  | .pipewrite p n, s =>
    if s.pc p = .out ∧ s.writeopen = true ∧ ∀ q, (s.pc q).closes true = false then
      some (.tau, s.goto p (.writeAcquire n))
    else none
  | .piperead p n, s =>
    if s.pc p = .out ∧ s.readopen = true ∧ ∀ q, (s.pc q).closes false = false then
      some (.tau, s.goto p (.readAcquire n))
    else none
  | .pipeclose p w, s =>
    if s.pc p = .out ∧ s.isOpen w = true ∧ ∀ q, (s.pc q).uses w = false then
      some (.tau, s.goto p (.closeAcquire w))
    else none
  | .kill p, s =>
    let s' := { s with killed := update s.killed p true }
    match s.pc p with
    | .sleepLocked _ _ | .sleepUnlocked _ _ => none
    | .asleep _ b => some (.tau, s'.goto p (.woken b))
    | _ => some (.tau, s')
  | .run p ch, s => run p ch s

/-- After `pipealloc`. -/
def init (data : Nat → UInt8) : State N where
  lock := none
  data := data
  nread := 0
  nwrite := 0
  readopen := true
  writeopen := true
  killed := fun _ => false
  pc := fun _ => .out

def system (N : Nat) : System (State N) Event := ofExec (fun s => ∃ data, s = init data) exec

variable {c : Chan} {q : Nat} {x : PC}

/-! ## 2. Invariant -/

namespace PC

/-- Inside a section of `pi->lock`. -/
def holdsLock : PC → Bool
  | writeTest _ _ _ | writeWake _ _ _ | writeCopy _ _ _ | writeDone _ _ | readTest _ | readCopy _ _
  | readDone _ _ | sleepLocked _ _ | closeSet _ | closeWake _ _ => true
  | _ => false

/-- The process will run `wakeup(c)`, or the part of it that reaches process `q`. -/
def owes (c : Chan) (q : Nat) : PC → Prop
  | writeTest _ _ fresh | writeCopy _ _ fresh => c = .nread ∧ fresh = true
  | writeWake k _ _ | writeDone k _ => c = .nread ∧ k ≤ q
  | readCopy _ _ => c = .nwrite
  | readDone k _ => c = .nwrite ∧ k ≤ q
  | closeWake w k => c = .ofClose w ∧ k ≤ q
  | _ => False

theorem holdsLock_of_owes (h : x.owes c q) : x.holdsLock = true := by
  cases x <;> first | rfl | exact h.elim

theorem not_owes_of_sleepsOn {c' : Chan} (h : x.sleepsOn c = true) : ¬ x.owes c' q := by
  cases x <;> first | exact id | cases h

end PC

@[simp] theorem State.goto_self (s : State N) (p : Fin N) (c : PC) : (s.goto p c).pc p = c := by
  simp [goto]

variable {p : Fin N}

@[simp] theorem State.goto_ne (s : State N) {q : Fin N} (c : PC) (h : q ≠ p) :
    (s.goto p c).pc q = s.pc q := by
  simp [goto, h]

/-- The condition under which a process sleeps. -/
def State.Blocked (s : State N) : Chan → Prop
  | .nread => s.empty = true ∧ s.writeopen = true
  | .nwrite => s.full = true ∧ s.readopen = true

/-- What a process in a section of `pi->lock` has found. -/
def State.Found (s : State N) : PC → Prop
  | .writeTest _ _ fresh => fresh = true → s.empty = false
  | .writeCopy _ _ fresh => s.full = false ∧ (fresh = true → s.empty = false)
  | .writeWake _ _ _ => s.Blocked .nwrite
  | _ => True

variable {s : State N}

theorem State.found_of_not_holdsLock {c : PC} (h : c.holdsLock = false) : s.Found c := by
  cases c <;> first | exact trivial | cases h

/-- Who sleeps has a reason to, or will be woken by a process in a section of
    `pi->lock`. -/
def Waits (s : State N) : Prop :=
  ∀ q c, (s.pc q).sleepsOn c = true → s.Blocked c ∨ ∃ p, (s.pc p).owes c q

section

variable (tr : List Event)

/-- The bytes put, and the bytes taken, in order. -/
def puts : List UInt8 :=
  tr.filterMap fun e => match e with
    | .put b => some b
    | _ => none

def takes : List UInt8 :=
  tr.filterMap fun e => match e with
    | .took b => some b
    | _ => none

@[simp] theorem puts_append (e : Event) : puts (tr ++ [e]) = puts tr ++ puts [e] :=
  filterMap_append

@[simp] theorem takes_append (e : Event) : takes (tr ++ [e]) = takes tr ++ takes [e] :=
  filterMap_append

/-- The ring stands for the bytes put and not yet taken. -/
def Fifo (s : State N) : Prop :=
  ∃ q, puts tr = takes tr ++ q ∧ Ring.Holds PIPESIZE (2 ^ 32) s.data s.nread s.nwrite q

/-- What holds along every run. -/
structure Inv (s : State N) : Prop where
  lock : Guards PC.holdsLock s.lock s.pc
  found : ∀ p, s.Found (s.pc p)
  fifo : Fifo tr s
  waits : .lost ∉ tr → Waits s

end

theorem inv_init (data : Nat → UInt8) : Inv [] (init data : State N) where
  lock := by intro p; simp [init, PC.holdsLock]
  found := fun _ => trivial
  fifo := ⟨[], rfl, Ring.Holds.empty (Nat.two_pow_pos 32)⟩
  waits := by intro _ q c hq; cases hq

variable {tr : List Event}

theorem Fifo.silent {e : Event} (h : Fifo tr s) (hp : puts [e] = [])
    (ht : takes [e] = []) : Fifo (tr ++ [e]) s := by
  obtain ⟨q, hq, hr⟩ := h
  refine ⟨q, ?_, hr⟩
  rw [puts_append, takes_append, hp, ht, append_nil, append_nil, hq]

theorem Fifo.put (h : Fifo tr s) (hroom : s.full = false) (b : UInt8) :
    Fifo (tr ++ [.put b]) (s.put b) ∧ (s.put b).empty = false := by
  obtain ⟨q, hq, hr⟩ := h
  have hlt : q.length < PIPESIZE := by
    refine lt_of_le_of_ne hr.fits fun hlen => ?_
    have hfull : s.nwrite = (s.nread + PIPESIZE) % 2 ^ 32 := (hr.full_iff (by decide)).mpr hlen
    exact absurd hfull (of_decide_eq_false hroom)
  have hput := hr.put (by decide) hlt b
  refine ⟨⟨q ++ [b], ?_, hput⟩, ?_⟩
  · rw [puts_append, takes_append, hq, append_assoc]
    simp [puts, takes]
  · refine decide_eq_false fun he => ?_
    have hnil := (hput.empty_iff (by decide)).mp he
    exact absurd (congrArg length hnil) (by simp)

theorem Fifo.take (h : Fifo tr s) (hne : s.empty = false) : Fifo (tr ++ [.took s.next]) s.take := by
  obtain ⟨q, hq, hr⟩ := h
  cases q with
  | nil =>
    have : s.nread = s.nwrite := (hr.empty_iff (by decide)).mpr rfl
    exact absurd this (of_decide_eq_false hne)
  | cons x q =>
    obtain ⟨hx, hr'⟩ := hr.take (Nat.one_le_two_pow)
    refine ⟨q, ?_, hr'⟩
    have hnext : s.next = x := hx
    rw [puts_append, takes_append, hq, hnext]
    simp [puts, takes]

section Steps

variable {tr : List Event} {s s' : State N} {p : Fin N} {c : PC} {e : Event}

section

variable {l : Option (Fin N)} {q : Fin N} {ch : Chan} {k : Nat} {next : PC} {done : State N}
  (h : Inv tr s)
include h

/-- A move of one process that leaves the pipe alone. -/
theorem Inv.goto (lock : Guards PC.holdsLock l (update s.pc p c)) (found : s.Found c)
    (sleeps : ∀ ch, c.sleepsOn ch = true → (s.pc p).sleepsOn ch = true ∨ s.Blocked ch)
    (owes : .lost ∉ tr →
      ∀ ch (q : Fin N), q ≠ p → (s.pc q).sleepsOn ch = true → (s.pc p).owes ch q → c.owes ch q) :
    Inv tr { s.goto p c with lock := l } := by
  refine ⟨lock, fun q => update_one (motive := fun _ => s.Found) q found fun q _ => h.found q,
    h.fifo, ?_⟩
  intro hno q ch hq
  have hold : (s.pc q).sleepsOn ch = true ∨ s.Blocked ch := by
    rcases update_cases (PC.sleepsOn ch · = true) hq with ⟨rfl, hs⟩ | ⟨-, hs⟩
    · exact sleeps ch hs
    · exact .inl hs
  rcases hold with hold | hblk
  · rcases h.waits hno q ch hold with hblk | ⟨r, hr⟩
    · exact .inl hblk
    · refine .inr ⟨r, ?_⟩
      show ((s.goto p c).pc r).owes ch q
      by_cases hrp : r = p
      · subst hrp
        have hqr : q ≠ r := by
          rintro rfl
          exact PC.not_owes_of_sleepsOn hold hr
        rw [State.goto_self]
        exact owes hno ch q hqr hold hr
      · rwa [State.goto_ne _ _ hrp]
  · exact .inl hblk

theorem Inv.tau : Inv (tr ++ [.tau]) s :=
  { h with
    fifo := h.fifo.silent rfl rfl
    waits := fun hno => h.waits fun hm => hno (mem_append_left _ hm) }

theorem Inv.lost : Inv (tr ++ [.lost]) s :=
  { h with
    fifo := h.fifo.silent rfl rfl
    waits := fun hno => absurd (mem_append_right _ (mem_singleton_self _)) hno }

/-- Whoever is in a section of `pi->lock` is alone there. -/
theorem Inv.alone (hp : (s.pc p).holdsLock = true) (hq : q ≠ p) : (s.pc q).holdsLock = false := by
  cases hc : (s.pc q).holdsLock with
  | false => rfl
  | true => exact absurd (h.lock.unique hc hp) hq

/-- The holder of `pi->lock` changes the pipe. -/
theorem Inv.change (hp : (s.pc p).holdsLock = true) (hc : c.holdsLock = true)
    (hlock : s'.lock = s.lock) (hpc : s'.pc = update s.pc p c) (hfound : s'.Found c)
    (hsleep : ∀ ch, c.sleepsOn ch = false) (hfifo : Fifo (tr ++ [e]) s')
    (hblk : ∀ ch (q : Fin N), s.Blocked ch ∨ (s.pc p).owes ch q → s'.Blocked ch ∨ c.owes ch q) :
    Inv (tr ++ [e]) s' := by
  refine ⟨?_, ?_, hfifo, ?_⟩
  · rw [hlock, hpc]
    exact h.lock.keep (by rw [hc, hp])
  · intro q
    rw [hpc]
    exact update_one q hfound fun q hq => State.found_of_not_holdsLock (h.alone hp hq)
  · intro hno q ch hq
    rw [hpc] at hq
    have hq := (update_other (PC.sleepsOn ch · = true) hq (by rw [hsleep]; nofun)).2
    -- nobody else holds the lock, so nobody else owes a wakeup
    have hreason : s.Blocked ch ∨ (s.pc p).owes ch q := by
      rcases h.waits (fun hm => hno (mem_append_left _ hm)) q ch hq with hb | ⟨r, hr⟩
      · exact .inl hb
      · refine .inr ?_
        rwa [h.lock.unique (PC.holdsLock_of_owes hr) hp] at hr
    rcases hblk ch q hreason with hb | ho
    · exact .inl hb
    · exact .inr ⟨p, by rwa [hpc, update_self]⟩

/-- `acquire(&pi->lock)`. -/
theorem Inv.acquire (hex : s.acquire p c = some (e, s')) (hc : c.holdsLock = true)
    (hfound : s.Found c) (hsleep : ∀ ch, c.sleepsOn ch = false) : Inv (tr ++ [e]) s' := by
  obtain ⟨hfree, hex⟩ := ite_none_right_eq_some.mp hex
  cases hex
  have hout := h.lock.free hfree p
  refine (h.goto (h.lock.acquire hfree hc) hfound ?_ ?_).tau
  · intro ch hch
    rw [hsleep] at hch
    cases hch
  · intro _ ch q _ _ ho
    rw [PC.holdsLock_of_owes ho] at hout
    cases hout

/-- A move inside a section, or outside of all. -/
theorem Inv.keep (hc : c.holdsLock = (s.pc p).holdsLock) (hfound : s.Found c)
    (hsleep : ∀ ch, c.sleepsOn ch = true → (s.pc p).sleepsOn ch = true ∨ s.Blocked ch)
    (howes : .lost ∉ tr →
      ∀ ch (q : Fin N), q ≠ p → (s.pc q).sleepsOn ch = true → (s.pc p).owes ch q → c.owes ch q) :
    Inv tr (s.goto p c) :=
  h.goto (l := s.lock) (h.lock.keep hc) hfound hsleep howes

/-- The process goes on; it owes what it did. -/
theorem Inv.goOn {c₀ : PC} (hc₀ : s.pc p = c₀) (hc : c.holdsLock = c₀.holdsLock)
    (hfound : s.Found c) (hsleep : ∀ ch, c.sleepsOn ch = false)
    (howes : ∀ ch (q : Fin N), c₀.owes ch q → c.owes ch q) : Inv (tr ++ [.tau]) (s.goto p c) := by
  subst hc₀
  refine (h.keep hc hfound ?_ fun _ ch q _ _ => howes ch q).tau
  intro ch hs
  rw [hsleep] at hs
  cases hs

/-- `release(&pi->lock)`. -/
theorem Inv.release (hp : (s.pc p).holdsLock = true) (hc : c.holdsLock = false)
    (hsleep : ∀ ch, c.sleepsOn ch = true → (s.pc p).sleepsOn ch = true)
    (howes : .lost ∉ tr →
      ∀ ch (q : Fin N), q ≠ p → (s.pc q).sleepsOn ch = true → ¬ (s.pc p).owes ch q) :
    Inv tr (s.goto p c).release :=
  h.goto (h.lock.release hp hc) (State.found_of_not_holdsLock hc)
    (fun ch hch => .inl (hsleep ch hch))
    (fun hno ch q hqp hq ho => absurd ho (howes hno ch q hqp hq))

/-- One round of `wakeup` that finds the process at `k` not asleep on the channel:
    the wakeup is owed to the processes after it. -/
theorem Inv.wakeup_skip (hpc : ∀ c' q, (s.pc p).owes c' q ↔ c' = ch ∧ k ≤ q)
    (hnext : ∀ c' q, next.owes c' q ↔ c' = ch ∧ k + 1 ≤ q) (hfound : s.Found next)
    (hk : ∀ q : Fin N, q ≠ p → q.val = k → (s.pc q).sleepsOn ch = false) :
    Inv tr (s.goto p next) := by
  have hp : (s.pc p).holdsLock = true := PC.holdsLock_of_owes ((hpc ch k).mpr ⟨rfl, le_rfl⟩)
  have hn := (hnext ch (k + 1)).mpr ⟨rfl, le_rfl⟩
  refine h.keep (by rw [hp, PC.holdsLock_of_owes hn]) hfound ?_ ?_
  · intro c' hc'
    exact absurd hn (PC.not_owes_of_sleepsOn hc')
  · intro _ c' q hqp hq ho
    obtain ⟨rfl, hle⟩ := (hpc c' q).mp ho
    have hne : q.val ≠ k := by
      intro he
      rw [hk q hqp he] at hq
      cases hq
    exact (hnext c' q).mpr ⟨rfl, by omega⟩

/-- One round of `wakeup`. -/
theorem Inv.wakeup (hex : wakeup ch s p k next done = some (e, s'))
    (hpc : ∀ c' q, (s.pc p).owes c' q ↔ c' = ch ∧ k ≤ q)
    (hnext : ∀ c' q, next.owes c' q ↔ c' = ch ∧ k + 1 ≤ q) (hfound : s.Found next)
    (hdone : N ≤ k → Inv tr done) : Inv (tr ++ [e]) s' := by
  unfold Pipe.wakeup at hex
  split at hex
  · next hk =>
    dsimp only at hex
    have hval : ∀ q : Fin N, q.val = k → q = ⟨k, hk⟩ := fun q hq => Fin.ext hq
    split at hex
    · next hkp =>
      cases hex
      exact (h.wakeup_skip hpc hnext hfound fun q hqp hq => absurd ((hval q hq).trans hkp) hqp).tau
    · next hkp =>
      split at hex
      · cases hex
      · cases hex
      · next c' b hq =>
        split at hex
        · next hc =>
          cases hex
          -- the sleeper is made runnable, then the caller moves on
          have hwoken : Inv tr (s.goto ⟨k, hk⟩ (.woken b)) := by
            refine h.keep (by rw [hq]; rfl) trivial (fun c' hc' => ?_) fun _ c' r _ _ ho => ?_
            · cases hc'
            · rw [hq] at ho
              exact ho.elim
          have hpk : (s.goto ⟨k, hk⟩ (.woken b)).pc p = s.pc p := s.goto_ne _ (Ne.symm hkp)
          refine (hwoken.wakeup_skip (by rw [hpk]; exact hpc) hnext hfound fun q _ hqk => ?_).tau
          rw [hval q hqk, State.goto_self]
          rfl
        · next hc =>
          cases hex
          refine (h.wakeup_skip hpc hnext hfound fun q _ hqk => ?_).tau
          rw [hval q hqk, hq]
          exact decide_eq_false hc
      · next hlocked hunlocked hasleep =>
        cases hex
        refine (h.wakeup_skip hpc hnext hfound fun q _ hqk => ?_).tau
        rw [hval q hqk]
        cases hq : s.pc ⟨k, hk⟩ with
        | sleepLocked c b => exact absurd hq (hlocked c b)
        | sleepUnlocked c b => exact absurd hq (hunlocked c b)
        | asleep c b => exact absurd hq (hasleep c b)
        | _ => rfl
  · next hk =>
    cases hex
    exact (hdone (Nat.le_of_not_lt hk)).tau

end

end Steps

variable {i : Nat} {n : Int} {k : Nat}

/-! ### Steps -/

section Run

variable {tr : List Event} {s s' : State N} {p : Fin N} {ch : Option UInt8} {e : Event}

section

variable (h : Inv tr s) {fresh : Bool}
include h

/-- A reader takes a byte. -/
theorem Inv.take {c : PC} (hc : s.pc p = .readCopy i n) (hne : s.empty = false)
    (hlock : c.holdsLock = true) (hfound : s.take.Found c) (howes : ∀ q, c.owes .nwrite q) :
    Inv (tr ++ [.took s.next]) (s.take.goto p c) := by
  refine h.change (by rw [hc]; rfl) hlock rfl rfl hfound ?_ (h.fifo.take hne) ?_
  · intro c'
    cases hs : c.sleepsOn c' with
    | false => rfl
    | true => exact absurd (howes 0) (PC.not_owes_of_sleepsOn hs)
  · intro c' q hreason
    cases c' with
    | nwrite => exact .inr (howes q)
    | nread =>
      rcases hreason with hb | ho
      · exact absurd hb.1 (by rw [hne]; decide)
      · rw [hc] at ho
        cases ho

/-- The `wakeup` at the end of a function. -/
theorem Inv.lastWakeup {c next : PC} {ch : Chan} (hc : s.pc p = c)
    (hex : Pipe.wakeup ch s p k next (s.goto p .out).release = some (e, s'))
    (hpc : ∀ c' q, c.owes c' q ↔ c' = ch ∧ k ≤ q)
    (hnext : ∀ c' q, next.owes c' q ↔ c' = ch ∧ k + 1 ≤ q) (hfound : s.Found next) :
    Inv (tr ++ [e]) s' := by
  subst hc
  refine h.wakeup hex hpc hnext hfound fun hk => ?_
  -- the process has reached everyone and leaves
  refine h.release (PC.holdsLock_of_owes ((hpc ch k).mpr ⟨rfl, le_rfl⟩)) rfl
    (fun _ hs => by cases hs) ?_
  intro _ c' q _ _ ho
  have := ((hpc c' q).mp ho).2
  omega

variable (hex : run p ch s = some (e, s'))
include hex

/-- A writer at the head of its loop. -/
theorem inv_writeTest (hc : s.pc p = .writeTest i n fresh) : Inv (tr ++ [e]) s' := by
  have hf := h.found p
  unfold run at hex
  rw [hc] at hex hf
  dsimp only at hex
  split at hex
  · split at hex
    · -- killed, or nobody to read: the caller leaves without a wakeup
      cases hex
      have hp : (s.pc p).holdsLock = true := by rw [hc]; rfl
      split
      · refine h.lost.release hp rfl (fun _ hs => by cases hs) fun hno => ?_
        exact absurd (mem_append_right _ (mem_singleton_self _)) hno
      · next hquiet =>
        refine Inv.tau (h.release hp rfl (fun _ hs => by cases hs) fun _ c' q _ hq ho => ?_)
        rw [hc] at ho
        obtain ⟨rfl, hfresh⟩ := ho
        exact hquiet ⟨hfresh, any_eq_true.mpr ⟨q, mem_finRange q, hq⟩⟩
    · next hopen =>
      split at hex
      · next hfull =>
        cases hex
        refine h.goOn hc rfl ⟨hfull, ?_⟩ (fun _ => rfl) fun c' q ho => ⟨ho.1, zero_le _⟩
        cases hr : s.readopen with
        | false => exact absurd (.inl hr) hopen
        | true => rfl
      · next hfull =>
        cases hex
        exact h.goOn hc rfl ⟨Bool.eq_false_iff.mpr hfull, hf⟩ (fun _ => rfl) fun _ _ ho => ho
  · cases hex
    exact h.goOn hc rfl trivial (fun _ => rfl) fun c' q ho => ⟨ho.1, zero_le _⟩

/-- A writer at `copyin`. -/
theorem inv_writeCopy (hc : s.pc p = .writeCopy i n fresh) : Inv (tr ++ [e]) s' := by
  have hf := h.found p
  unfold run at hex
  rw [hc] at hex hf
  cases ch with
  | none =>
    cases hex
    exact h.goOn hc rfl trivial (fun _ => rfl) fun c' q ho => ⟨ho.1, zero_le _⟩
  | some b =>
    cases hex
    obtain ⟨hfifo, hne⟩ := h.fifo.put hf.1 b
    refine h.change (by rw [hc]; rfl) rfl rfl rfl (fun _ => hne) (fun _ => rfl) hfifo ?_
    intro c' q hreason
    cases c' with
    | nread => exact .inr ⟨rfl, rfl⟩
    | nwrite =>
      -- the pipe was not full, and this writer owes readers only
      rcases hreason with hb | ho
      · exact absurd hb.1 (by rw [hf.1]; decide)
      · rw [hc] at ho
        exact absurd ho.1 (by decide)

/-- A reader at the head of its `while`. -/
theorem inv_readTest (hc : s.pc p = .readTest n) : Inv (tr ++ [e]) s' := by
  unfold run at hex
  rw [hc] at hex
  have howes : ∀ c' (q : Nat), ¬ (s.pc p).owes c' q := by
    intro c' q
    rw [hc]
    exact id
  dsimp only at hex
  split at hex
  · next hblk =>
    split at hex
    · cases hex
      exact Inv.tau (h.release (by rw [hc]; rfl) rfl (fun _ hs => by cases hs) fun _ c' q _ _ =>
        howes c' q)
    · cases hex
      refine Inv.tau (h.keep (by rw [hc]; rfl) trivial (fun c' hs => .inr ?_) ?_)
      · obtain rfl : Chan.nread = c' := of_decide_eq_true hs
        exact hblk
      · exact fun _ c' q _ _ ho => absurd ho (howes c' q)
  · cases hex
    exact h.goOn hc rfl trivial (fun _ => rfl) fun _ _ ho => ho.elim

/-- A reader at the head of its `for`. -/
theorem inv_readCopy (hc : s.pc p = .readCopy i n) : Inv (tr ++ [e]) s' := by
  have hdone : Inv (tr ++ [.tau]) (s.goto p (.readDone 0 i)) :=
    h.goOn hc rfl trivial (fun _ => rfl) fun c' q ho => ⟨ho, zero_le _⟩
  unfold run at hex
  rw [hc] at hex
  dsimp only at hex
  split at hex
  · split at hex
    · cases hex
      exact hdone
    · next hne =>
      have hne := Bool.eq_false_iff.mpr hne
      split at hex
      · cases hex
        exact h.take hc hne rfl trivial fun q => ⟨rfl, zero_le q⟩
      · cases hex
        exact h.take hc hne rfl trivial fun _ => rfl
  · cases hex
    exact hdone

/-- `pipeclose` clears the flag of one end and owes a wakeup to the other. -/
theorem inv_closeSet {w : Bool} (hc : s.pc p = .closeSet w) : Inv (tr ++ [e]) s' := by
  unfold run at hex
  rw [hc] at hex
  cases hex
  refine h.change (by rw [hc]; rfl) (c := .closeWake w 0) rfl rfl rfl trivial (fun _ => rfl)
    (h.fifo.silent rfl rfl) ?_
  intro c' q hreason
  rcases hreason with hb | ho
  · by_cases hw : c' = .ofClose w
    · exact .inr ⟨hw, zero_le q⟩
    · refine .inl ?_
      cases w <;> cases c' <;> first | exact absurd rfl hw | exact hb
  · rw [hc] at ho
    exact ho.elim

theorem inv_run : Inv (tr ++ [e]) s' := by
  have hex' := hex
  unfold run at hex'
  generalize hc : s.pc p = c at hex'
  cases c with
  | out | asleep => cases hex'
  | writeAcquire n => exact h.acquire hex' rfl (fun hf => by cases hf) (fun _ => rfl)
  | readAcquire | closeAcquire => exact h.acquire hex' rfl trivial (fun _ => rfl)
  | woken b =>
    cases b with
    | write i n => exact h.acquire hex' rfl (fun hf => by cases hf) (fun _ => rfl)
    | read n => exact h.acquire hex' rfl trivial (fun _ => rfl)
  | writeTest i n fresh => exact inv_writeTest h hex hc
  | writeCopy i n fresh => exact inv_writeCopy h hex hc
  | readTest n => exact inv_readTest h hex hc
  | readCopy i n => exact inv_readCopy h hex hc
  | closeSet w => exact inv_closeSet h hex hc
  | writeDone | readDone | closeWake =>
    exact h.lastWakeup hc hex' (fun _ _ => Iff.rfl) (fun _ _ => Iff.rfl) trivial
  | writeWake k i n =>
    have hpc : ∀ c' q, (s.pc p).owes c' q ↔ c' = .nread ∧ k ≤ q := by
      rw [hc]; exact fun _ _ => Iff.rfl
    have hblk : s.Blocked .nwrite := by have := h.found p; rwa [hc] at this
    refine h.wakeup hex' hpc (fun _ _ => Iff.rfl) hblk fun hk => ?_
    refine h.keep (by rw [hc]; rfl) trivial (fun c' hs => .inr ?_) fun _ c' q _ _ ho => ?_
    · obtain rfl : Chan.nwrite = c' := of_decide_eq_true hs
      exact hblk
    · have := ((hpc c' q).mp ho).2
      omega
  | sleepLocked c b =>
    cases hex'
    refine Inv.tau (h.release (by rw [hc]; rfl) rfl (fun c' hs => by rw [hc]; exact hs)
      fun _ c' q _ _ ho => ?_)
    rw [hc] at ho
    exact ho
  | sleepUnlocked c b =>
    cases hex'
    refine Inv.tau (h.keep (by rw [hc]; rfl) trivial (fun c' hs => .inl (by rw [hc]; exact hs))
      fun _ c' q _ _ ho => ?_)
    rw [hc] at ho
    exact ho.elim

omit hex in
theorem inv_exec {a : Action N} (hex : exec a s = some (e, s')) : Inv (tr ++ [e]) s' := by
  cases a with
  | pipewrite | piperead | pipeclose =>
    -- a process enters one of the functions
    obtain ⟨hg, hex⟩ := ite_none_right_eq_some.mp hex
    cases hex
    exact h.goOn hg.1 rfl trivial (fun _ => rfl) fun _ _ ho => ho.elim
  | run p ch => exact inv_run h hex
  | kill p =>
    have hkilled : Inv tr { s with killed := update s.killed p true } := { h with }
    rw [exec] at hex
    split at hex
    · cases hex
    · cases hex
    · next c b hc =>
      cases hex
      exact hkilled.goOn hc rfl trivial (fun _ => rfl) fun _ _ ho => ho.elim
    · cases hex
      exact hkilled.tau

end

theorem inv_trace (h : Trace (system N) tr s) : Inv tr s := by
  refine h.invariant ?_ ?_
  · rintro s ⟨data, rfl⟩
    exact inv_init data
  · rintro tr s e s' hinv ⟨a, hex⟩
    exact inv_exec hinv hex

end Run

/-! ## 3. FIFO -/

/-- **FIFO.**  In every run the bytes taken out are, in order, a prefix of the
    bytes put in.  The rest are the unread bytes: `nwrite - nread` of them, in the
    wrapped arithmetic of the counters, never more than `PIPESIZE`, and each is
    still in its cell. -/
theorem pipe_fifo {tr : List Event} {s : State N} (h : Trace (system N) tr s) :
    ∃ unread, puts tr = takes tr ++ unread ∧
      (s.nwrite + 2 ^ 32 - s.nread) % 2 ^ 32 = unread.length ∧ unread.length ≤ PIPESIZE ∧
      ∀ j, j < unread.length → unread[j]? = some (s.data ((s.nread + j) % 2 ^ 32 % PIPESIZE)) := by
  obtain ⟨q, hq, hr⟩ := (inv_trace h).fifo
  exact ⟨q, hq, (hr.length_eq (by decide)).symm, hr.fits, hr.cell⟩

/-- A process that reads and one that writes. -/
def reader : Fin 2 := ⟨0, Nat.zero_lt_two⟩

def writer : Fin 2 := ⟨1, Nat.one_lt_two⟩

/-- A writer puts two bytes, a reader takes the first. -/
def twoBytes : List (Action 2) :=
  [.pipewrite writer 2, .run writer none, .run writer none, .run writer (some 7), .run writer none,
    .run writer (some 8), .run writer none, .run writer none, .run writer none, .run writer none,
    .piperead reader 1, .run reader none, .run reader none, .run reader (some 0)]

theorem pipe_fifo_twoBytes :
    ∃ tr s, Trace (system 2) tr s ∧ puts tr = [7, 8] ∧ takes tr = [7] ∧
      ∃ unread, puts tr = takes tr ++ unread ∧
        (s.nwrite + 2 ^ 32 - s.nread) % 2 ^ 32 = unread.length ∧ unread.length ≤ PIPESIZE ∧
        ∀ j, j < unread.length →
          unread[j]? = some (s.data ((s.nread + j) % 2 ^ 32 % PIPESIZE)) := by
  have hrun : (replay exec twoBytes (init fun _ => 0)).map (fun r => (puts r.1, takes r.1)) =
      some ([7, 8], [7]) := by decide
  obtain ⟨⟨tr, s⟩, hrep, htr⟩ := map_eq_some_iff.mp hrun
  obtain ⟨hputs, htakes⟩ := Prod.mk.inj htr
  have htrace : Trace (system 2) tr s := trace_of_replay ⟨_, rfl⟩ hrep
  exact ⟨tr, s, htrace, hputs, htakes, pipe_fifo htrace⟩

/-! ## 4. Wakeups -/

/-- Nobody sleeps without a reason. -/
def NoLostWakeup (s : State N) : Prop :=
  s.lock = none →
    (∀ p b, s.pc p = .asleep .nread b → s.nread = s.nwrite ∧ s.writeopen = true) ∧
    ∀ p b, s.pc p = .asleep .nwrite b → s.nwrite = (s.nread + PIPESIZE) % 2 ^ 32 ∧ s.readopen = true

/-- While `pi->lock` is free nobody owes a wakeup. -/
theorem Inv.noLostWakeup (h : Inv tr s) (hno : .lost ∉ tr) : NoLostWakeup s := by
  intro hfree
  have hblk : ∀ p c b, s.pc p = .asleep c b → s.Blocked c := by
    intro p c b hp
    rcases h.waits hno p c (by rw [hp]; exact decide_eq_true rfl) with hb | ⟨r, hr⟩
    · exact hb
    · have := h.lock.free hfree r
      rw [PC.holdsLock_of_owes hr] at this
      cases this
  refine ⟨fun p b hp => ?_, fun p b hp => ?_⟩
  · obtain ⟨he, ho⟩ := hblk p _ b hp
    exact ⟨of_decide_eq_true he, ho⟩
  · obtain ⟨hf, ho⟩ := hblk p _ b hp
    exact ⟨of_decide_eq_true hf, ho⟩

variable {t : State N}

theorem not_lost_of_wakeup {done : State N} {next : PC} :
    wakeup c s p k next done ≠ some (.lost, t) := by
  intro h
  unfold wakeup at h
  dsimp only at h
  repeat' split at h
  all_goals cases h

theorem not_lost_of_acquire {c : PC} : s.acquire p c ≠ some (.lost, t) := by
  intro h
  unfold State.acquire at h
  split at h <;> cases h

/-- The step at which a wakeup is lost: a writer with fresh bytes leaves. -/
theorem run_lost {ch : Option UInt8} (h : run p ch s = some (.lost, t)) :
    ∃ i n q, s.pc p = .writeTest i n true ∧ (s.pc q).sleepsOn .nread = true ∧
      t = (s.goto p .out).release := by
  unfold run at h
  cases hc : s.pc p with
  | writeTest i n fresh =>
    rw [hc] at h
    dsimp only at h
    split at h
    · split at h
      · obtain ⟨he, rfl⟩ := Prod.mk.inj (some.inj h)
        split at he
        · next hl =>
          obtain ⟨rfl, hany⟩ := hl
          obtain ⟨q, -, hq⟩ := any_eq_true.mp hany
          exact ⟨i, n, q, rfl, hq, rfl⟩
        · cases he
      · split at h <;> cases h
    · cases h
  | writeAcquire n | readAcquire n | closeAcquire w | woken b =>
    rw [hc] at h
    exact absurd h not_lost_of_acquire
  | writeWake k i n | writeDone k i | readDone k i | closeWake w k =>
    rw [hc] at h
    exact absurd h not_lost_of_wakeup
  | _ =>
    rw [hc] at h
    dsimp only at h
    repeat' split at h
    all_goals cases h

/-- After a lost wakeup a reader sleeps, or is about to, at a pipe with bytes in it. -/
theorem exists_sleeper_of_lost (h : Trace (system N) tr s) (hs : (system N).step s .lost t) :
    t.lock = none ∧ t.nread ≠ t.nwrite ∧
    ∃ q b, t.pc q = .asleep .nread b ∨ t.pc q = .sleepUnlocked .nread b := by
  have hinv := inv_trace h
  obtain ⟨a, hex⟩ := hs
  cases a with
  | run p ch =>
    obtain ⟨i, n, q, hp, hq, rfl⟩ := run_lost hex
    have hf := hinv.found p
    rw [hp] at hf
    have hqp : q ≠ p := by
      rintro rfl
      rw [hp] at hq
      cases hq
    refine ⟨rfl, of_decide_eq_false (hf rfl), q, ?_⟩
    have hpc : ((s.goto p .out).release).pc q = s.pc q := s.goto_ne _ hqp
    have hout := hinv.alone (by rw [hp]; rfl) hqp
    rw [hpc]
    cases hc : s.pc q with
    | asleep c b =>
      rw [hc] at hq
      obtain rfl : c = .nread := of_decide_eq_true hq
      exact ⟨b, .inl rfl⟩
    | sleepUnlocked c b =>
      rw [hc] at hq
      obtain rfl : c = .nread := of_decide_eq_true hq
      exact ⟨b, .inr rfl⟩
    | sleepLocked c b =>
      rw [hc] at hout
      cases hout
    | _ =>
      rw [hc] at hq
      cases hq
  | kill p =>
    rw [exec] at hex
    repeat' split at hex
    all_goals cases hex
  | pipewrite p n | piperead p n | pipeclose p w =>
    rw [exec] at hex
    split at hex <;> cases hex

/-- **No lost wakeup**, as long as no writer leaves `pipewrite` because it was
    killed, with bytes that it has put and announced to nobody, while a reader
    sleeps; and every time one does a reader is left asleep at a pipe with bytes
    in it. -/
theorem no_lost_wakeup_iff {tr : List Event} {s : State N} (h : Trace (system N) tr s) :
    (.lost ∉ tr → NoLostWakeup s) ∧
      ∀ t, (system N).step s .lost t →
        ¬ NoLostWakeup t ∨ ∃ u, (system N).step t .tau u ∧ ¬ NoLostWakeup u := by
  refine ⟨(inv_trace h).noLostWakeup, fun t hs => ?_⟩
  obtain ⟨hfree, hne, q, b, hq | hq⟩ := exists_sleeper_of_lost h hs
  · exact .inl fun hw => hne ((hw hfree).1 q b hq).1
  · refine .inr ⟨t.goto q (.asleep .nread b), ⟨.run q none, by simp [exec, run, hq]⟩, fun hw => ?_⟩
    exact hne ((hw hfree).1 q b (t.goto_self q _)).1

/-- A reader waits at the empty pipe; a writer puts a byte and tells it. -/
def served : List (Action 2) :=
  [.piperead reader 1, .run reader none, .run reader none, .run reader none, .run reader none,
    .pipewrite writer 1, .run writer none, .run writer none, .run writer (some 7), .run writer none,
    .run writer none, .run writer none, .run writer none]

theorem no_lost_wakeup_served :
    ∃ tr s, Trace (system 2) tr s ∧ puts tr = [7] ∧ s.lock = none ∧ .lost ∉ tr ∧
      NoLostWakeup s := by
  have hrun : (replay exec served (init fun _ => 0)).map
      (fun r => (puts r.1, r.2.lock, decide (.lost ∈ r.1))) = some ([7], none, false) := by decide
  obtain ⟨⟨tr, s⟩, hrep, htr⟩ := map_eq_some_iff.mp hrun
  obtain ⟨hputs, htr⟩ := Prod.mk.inj htr
  obtain ⟨hlock, hno⟩ := Prod.mk.inj htr
  have htrace : Trace (system 2) tr s := trace_of_replay ⟨_, rfl⟩ hrep
  have hno : .lost ∉ tr := of_decide_eq_false hno
  exact ⟨tr, s, htrace, hputs, hlock, hno, (no_lost_wakeup_iff htrace).1 hno⟩

/-- A reader waits at the empty pipe; a writer of two bytes is killed after the
    first. -/
def killedBetween : List (Action 2) :=
  [.piperead reader 1, .run reader none, .run reader none, .run reader none, .run reader none,
    .pipewrite writer 2, .run writer none, .run writer none, .run writer (some 7), .kill writer,
    .run writer none]

theorem reader_sleeps_with_byte_in_pipe :
    ∃ tr s, Trace (system 2) tr s ∧ s.lock = none ∧ s.pc reader = .asleep .nread (.read 1) ∧
      s.nread = 0 ∧ s.nwrite = 1 ∧ ¬ NoLostWakeup s := by
  have hrun : (replay exec killedBetween (init fun _ => 0)).map
      (fun r => (r.2.lock, r.2.pc reader, r.2.nread, r.2.nwrite)) =
      some (none, .asleep .nread (.read 1), 0, 1) := by decide
  obtain ⟨⟨tr, s⟩, hrep, hs⟩ := map_eq_some_iff.mp hrun
  obtain ⟨hlock, hs⟩ := Prod.mk.inj hs
  obtain ⟨hpc, hs⟩ := Prod.mk.inj hs
  obtain ⟨hr, hw⟩ := Prod.mk.inj hs
  refine ⟨tr, s, trace_of_replay ⟨_, rfl⟩ hrep, hlock, hpc, hr, hw, fun hno => ?_⟩
  have := ((hno hlock).1 reader _ hpc).1
  dsimp only at hr hw
  omega

/-! ## 5. Delivery -/

/-- `copyout(pr->pagetable, va, &ch, 1)` into memory `mem`; `ok` are the pages
    that it can write. -/
def copyout (ok : Nat → Bool) (mem : Nat → UInt8) (va : Nat) (ch : UInt8) : Option (Nat → UInt8) :=
  if ok (va / VM.PGSIZE) then some (update mem va ch) else none

/-- The address `addr + i`. -/
def dstva (addr i : Nat) : Nat := (addr + i) % 2 ^ 64

/-- The `for` of `piperead(pi, addr, n)` run by `p`, which holds `pi->lock`, with
    the user memory; at most `k` rounds. -/
def copyLoop (ok : Nat → Bool) (addr : Nat) (p : Fin N) :
    Nat → State N → (Nat → UInt8) → State N × (Nat → UInt8)
  | 0, s, mem => (s, mem)
  | k + 1, s, mem =>
    match s.pc p with
    | .readCopy i _ =>
      let copied := copyout ok mem (dstva addr i) s.next
      match run p (copied.map fun _ => s.next) s with
      | some (.took _, s') => copyLoop ok addr p k s' (copied.getD mem)
      | some (_, s') => copyLoop ok addr p k s' mem
      | none => (s, mem)
    | _ => (s, mem)

/-- From state `s` with the bytes `q` in the pipe, exactly the `i` oldest have
    left it, and they are in memory from `addr` on. -/
structure Delivered (q : List UInt8) (addr i : Nat) (s t : State N) (mem : Nat → UInt8) : Prop where
  nread : t.nread = (s.nread + i) % 2 ^ 32
  rest : Ring.Holds PIPESIZE (2 ^ 32) t.data t.nread t.nwrite (q.drop i)
  stored : ∀ j, j < i → q[j]? = some (mem (dstva addr j))

section Delivery

variable {ok : Nat → Bool} {addr i : Nat} {p : Fin N} {n : Int} {s : State N} {q : List UInt8}
  {mem : Nat → UInt8}

theorem dstva_ne {j : Nat} (hj : j < i) (hi : i < 2 ^ 64) : dstva addr j ≠ dstva addr i := by
  unfold dstva
  omega

/-- A process behind its loop stays there. -/
theorem copyLoop_done (h : s.pc p = .readDone 0 i) : copyLoop ok addr p k s mem = (s, mem) := by
  cases k with
  | zero => rfl
  | succ k => simp only [copyLoop, h]

/-- How the loop ends that has stored `m` bytes of the queue `q` from round `i`
    on: with all that was asked for or there, or at a page it cannot write, where
    one byte more has left the pipe. -/
structure Ends (ok : Nat → Bool) (addr i : Nat) (n : Int) (q : List UInt8) (s : State N)
    (mem : Nat → UInt8) (m : Nat) (t : State N) (mem' : Nat → UInt8) : Prop where
  stored : ∀ j, j < m → q[j]? = some (mem' (dstva addr (i + j)))
  kept : ∀ j, j < i → mem' (dstva addr j) = mem (dstva addr j)
  how :
    (t.nread = (s.nread + m) % 2 ^ 32 ∧ Ring.Holds PIPESIZE (2 ^ 32) t.data t.nread t.nwrite
      (q.drop m) ∧
      ∀ j, j < q.length → ((i + j : Nat) : Int) < n → ok (dstva addr (i + j) / VM.PGSIZE) = true) ∨
    (t.nread = (s.nread + (m + 1)) % 2 ^ 32 ∧ m < q.length ∧ ((i + m : Nat) : Int) < n ∧
      ok (dstva addr (i + m) / VM.PGSIZE) = false)

/-- The last round: all that was asked for is stored, or the pipe is empty. -/
theorem copyLoop_last (hpc : s.pc p = .readCopy i n)
    (hq : Ring.Holds PIPESIZE (2 ^ 32) s.data s.nread s.nwrite q) (hend : i < n → q = []) :
    copyLoop ok addr p (k + 1) s mem = (s.goto p (.readDone 0 i), mem) ∧
      Ends ok addr i n q s mem 0 (s.goto p (.readDone 0 i)) mem := by
  have hrun : ∀ ch, run p ch s = some (.tau, s.goto p (.readDone 0 i)) := by
    intro ch
    by_cases hin : (i : Int) < n
    · have he : s.empty = true := decide_eq_true ((hq.empty_iff (by decide)).mpr (hend hin))
      simp [run, hpc, hin, he]
    · simp [run, hpc, hin]
  refine ⟨by simp only [copyLoop, hpc, hrun, copyLoop_done (s.goto_self p _)], ?_, fun _ _ => rfl,
    .inl ?_⟩
  · intro j hj
    exact absurd hj (not_lt_zero j)
  · refine ⟨(mod_eq_of_lt hq.read_lt).symm, hq, fun j hj hjn => ?_⟩
    rw [hend (by omega)] at hj
    exact absurd hj (not_lt_zero j)

/-- A round before the last adds its byte to what the later ones store. -/
theorem Ends.round {m : Nat} {x : UInt8} {mem' : Nat → UInt8} (hlen : i < 2 ^ 64)
    (hok : ok (dstva addr i / VM.PGSIZE) = true)
    (h : Ends ok addr (i + 1) n q (s.take.goto p (.readCopy (i + 1) n))
        (update mem (dstva addr i) x) m t mem') :
    Ends ok addr i n (x :: q) s mem (m + 1) t mem' where
  stored := by
    intro j hj
    cases j with
    | zero =>
      rw [add_zero, h.kept i (lt_succ_self i), update_self]
      rfl
    | succ j =>
      rw [getElem?_cons_succ, h.stored j (by omega), add_right_comm, add_assoc]
  kept := by
    intro j hj
    rw [h.kept j (by omega), update_of_ne (dstva_ne hj hlen)]
  how := by
    have hread : ∀ l, ((s.nread + 1) % 2 ^ 32 + l) % 2 ^ 32 = (s.nread + (l + 1)) % 2 ^ 32 := by
      intro l
      omega
    rcases h.how with ⟨h1, h2, h3⟩ | ⟨h1, h2, h3, h4⟩
    · refine .inl ⟨h1.trans (hread m), h2, fun j hj hjn => ?_⟩
      cases j with
      | zero => exact hok
      | succ j =>
        have := h3 j (lt_of_succ_lt_succ hj) (by omega)
        rwa [add_right_comm, add_assoc] at this
    · rw [add_right_comm, add_assoc] at h3 h4
      exact .inr ⟨h1.trans (hread _), succ_lt_succ h2, h3, h4⟩

/-- The loop comes to an end after at most `n` rounds. -/
theorem copyLoop_ends (ok : Nat → Bool) (addr k : Nat) :
    ∀ mem {i s q}, s.pc p = .readCopy i n → Ring.Holds PIPESIZE (2 ^ 32) s.data s.nread s.nwrite q →
      i + q.length < 2 ^ 64 → (n - i).toNat < k →
      ∃ m t mem', copyLoop ok addr p k s mem = (t, mem') ∧ t.pc p = .readDone 0 (i + m) ∧
        Ends ok addr i n q s mem m t mem' := by
  -- a round takes one byte or is the last: the rounds left cover what is still asked for
  induction k with
  | zero => exact fun _ _ _ _ _ _ _ hk => absurd hk (Nat.not_lt_zero _)
  | succ k ih =>
    intro mem i s q hpc hq hlen hk
    by_cases hend : i < n → q = []
    · obtain ⟨hloop, hends⟩ : copyLoop ok addr p (k + 1) s mem = _ ∧ _ := copyLoop_last hpc hq hend
      exact ⟨0, _, _, hloop, s.goto_self p _, hends⟩
    obtain ⟨hin, hne⟩ := Classical.not_imp.mp hend
    obtain ⟨x, q, rfl⟩ := exists_cons_of_ne_nil hne
    obtain ⟨hx, hq'⟩ := hq.take Nat.one_le_two_pow
    have he : s.empty = false := decide_eq_false fun he => hne ((hq.empty_iff (by decide)).mp he)
    rw [length_cons] at hlen
    by_cases hok : ok (dstva addr i / VM.PGSIZE) = true
    · have hcopy : copyout ok mem (dstva addr i) s.next = some (update mem (dstva addr i) x) := by
        rw [copyout, if_pos hok, State.next, hx]
      have hrun : run p (some s.next) s =
          some (.took s.next, s.take.goto p (.readCopy (i + 1) n)) := by
        simp [run, hpc, hin, he]
      obtain ⟨m, t, mem', hloop, ht, hends⟩ := ih (update mem (dstva addr i) x)
        (s := s.take.goto p (.readCopy (i + 1) n)) (State.goto_self _ _ _) hq' (by omega) (by omega)
      refine ⟨m + 1, t, mem', ?_, ?_, hends.round (by omega) hok⟩
      · simp only [copyLoop, hpc, hcopy, map_some, hrun, getD_some, hloop]
      · rw [ht, Nat.add_right_comm, Nat.add_assoc]
    · -- the byte is taken although its copy fails
      have hcopy : copyout ok mem (dstva addr i) s.next = none := if_neg hok
      have hrun : run p none s = some (.took s.next, s.take.goto p (.readDone 0 i)) := by
        simp [run, hpc, hin, he]
      refine ⟨0, s.take.goto p (.readDone 0 i), mem, ?_, State.goto_self _ _ _, ?_,
        fun _ _ => rfl, ?_⟩
      · simp only [copyLoop, hpc, hcopy, map_none, hrun, getD_none,
          copyLoop_done (State.goto_self _ _ _)]
      · intro j hj
        exact absurd hj (Nat.not_lt_zero j)
      · exact .inr ⟨rfl, Nat.succ_pos _, hin, eq_false_of_ne_true hok⟩

/-- **What `piperead` delivers.**  Of a pipe that holds the bytes `q` the copy
    loop returns some `i`; the `i` oldest bytes, and no others, have left the pipe
    and are stored at `addr` iff every page to be written is accessible. -/
theorem piperead_delivers_iff (ok : Nat → Bool) (addr : Nat) (mem : Nat → UInt8)
    (hpc : s.pc p = .readCopy 0 n) (hq : Ring.Holds PIPESIZE (2 ^ 32) s.data s.nread s.nwrite q) :
    ∃ i t mem', copyLoop ok addr p (n.toNat + 1) s mem = (t, mem') ∧ t.pc p = .readDone 0 i ∧
      (Delivered q addr i s t mem' ↔
        ∀ j, j < q.length → (j : Int) < n → ok (dstva addr j / VM.PGSIZE) = true) := by
  have hlen := hq.fits
  unfold PIPESIZE at hlen
  obtain ⟨i, t, mem', hrun, ht, hends⟩ := copyLoop_ends ok addr
    (n.toNat + 1) mem hpc hq (by omega) (by omega)
  rw [zero_add] at ht
  refine ⟨i, t, mem', hrun, ht, ?_⟩
  have hstored := hends.stored
  simp only [zero_add] at hstored
  rcases hends.how with ⟨hread, hrest, hok⟩ | ⟨hread, hi, hin, hbad⟩
  · simp only [zero_add] at hok
    exact iff_of_true ⟨hread, hrest, hstored⟩ hok
  · rw [zero_add] at hin hbad
    refine iff_of_false (fun hd => ?_) fun hok => ?_
    · -- one byte too many has left
      have := hread.symm.trans hd.nread
      omega
    · rw [hok i hi hin] at hbad
      cases hbad

end Delivery

/-- A writer puts one byte; a reader is at its copy loop. -/
def oneByte : List (Action 2) :=
  [.pipewrite writer 1, .run writer none, .run writer none, .run writer (some 7), .run writer none,
    .run writer none, .run writer none, .run writer none, .piperead reader 1, .run reader none,
    .run reader none]

theorem exists_oneByte :
    ∃ tr s, Trace (system 2) tr s ∧ s.pc reader = .readCopy 0 1 ∧ s.nread = 0 ∧
      (copyLoop (fun _ => false) 4096 reader 2 s fun _ => 0).1.nread = 1 ∧
      (copyLoop (fun _ => false) 4096 reader 2 s fun _ => 0).1.pc reader = .readDone 0 0 ∧
      Ring.Holds PIPESIZE (2 ^ 32) s.data s.nread s.nwrite [7] := by
  have hrun : (replay exec oneByte (init fun _ => 0)).map
    (fun r => (puts r.1, takes r.1, r.2.pc reader,
      r.2.nread, (copyLoop (fun _ => false) 4096 reader 2 r.2 fun _ => 0).1.nread,
      (copyLoop (fun _ => false) 4096 reader 2 r.2 fun _ => 0).1.pc reader)) =
      some ([7], [], .readCopy 0 1, 0, 1, .readDone 0 0) := by decide
  obtain ⟨⟨tr, s⟩, hrep, hs⟩ := map_eq_some_iff.mp hrun
  simp only [Prod.mk.injEq] at hs
  obtain ⟨hputs, htakes, hpc, hread, hread', hdone⟩ := hs
  have htrace : Trace (system 2) tr s := trace_of_replay ⟨_, rfl⟩ hrep
  obtain ⟨q, hq, hr⟩ := (inv_trace htrace).fifo
  rw [hputs, htakes] at hq
  exact ⟨tr, s, htrace, hpc, hread, hread', hdone, hq ▸ hr⟩

theorem piperead_delivers_oneByte :
    ∃ tr s, Trace (system 2) tr s ∧
      ∃ i t mem, t.pc reader = .readDone 0 i ∧
        copyLoop (fun _ => true) 4096 reader 2 s (fun _ => 0) = (t, mem) ∧
        Delivered [7] 4096 i s t mem := by
  obtain ⟨tr, s, htrace, hpc, -, -, -, hq⟩ := exists_oneByte
  obtain ⟨i, t, mem, hrun, ht, hiff⟩ :=
    piperead_delivers_iff (fun _ => true) 4096 (fun _ => 0) hpc hq
  exact ⟨tr, s, htrace, i, t, mem, ht, hrun, hiff.mpr fun _ _ _ => rfl⟩

/-- The only byte of the pipe goes to a page that cannot be written: `piperead`
    returns 0 and the byte is gone. -/
theorem piperead_drops_oneByte :
    ∃ tr s, Trace (system 2) tr s ∧ s.pc reader = .readCopy 0 1 ∧
      ∃ t mem, copyLoop (fun _ => false) 4096 reader 2 s (fun _ => 0) = (t, mem) ∧
        t.pc reader = .readDone 0 0 ∧ ¬ Delivered [7] 4096 0 s t mem := by
  obtain ⟨tr, s, htrace, hpc, hread, hread', hdone, -⟩ := exists_oneByte
  refine ⟨tr, s, htrace, hpc, _, _, rfl, hdone, fun hd => ?_⟩
  have := hread'.symm.trans hd.nread
  rw [hread] at this
  cases this

end NoviceKernel.Pipe
