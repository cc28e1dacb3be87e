import NoviceKernel.ProcSched

/-! # The process table

    1. **Steps**: a step of the system is a move of a process, a step of a
       scheduler, or a wakeup from outside.
    2. **States**: the changes of `p->state`, with the step that makes each.
    3. **Pids**: no two processes have the same, until they run out.
    4. **Killed flags**: `kill` takes the slots that are not in use for processes
       with pid 0, and `allocproc` does not clear the flag. -/

namespace NoviceKernel.Process

open TransitionSystem Function Count Nat State

variable {N H : Nat} {s s' : State N H} {h : Fin H} {p q : Fin N} {e : Event N H} {a : Action N H}
  {sw : Bool} {x y : Proc N H}

/-! ## 1. Steps -/

/-- **Effect of a scheduler** of hart `h`: it changes locks, and makes a process
    RUNNING. -/
structure Rescheduled (h : Fin H) (e : Event N H) (s s' : State N H) : Prop where
  proc : ∀ q, s'.proc q = { s.proc q with lock := (s'.proc q).lock, state := (s'.proc q).state }
  state : ∀ q, (s'.proc q).state = (s.proc q).state ∨
    (e = .dispatch h q ∧ (s.proc q).state = .RUNNABLE ∧ (s'.proc q).state = .RUNNING)
  label : e = .tau ∨ ∃ q, e = .dispatch h q
  rest : s' = { s with proc := s'.proc, cpu := s'.cpu }

/-- The lock of one slot is taken or released. -/
theorem Rescheduled.relock {l : Option (Fin H)} {c : Cpu N} :
    Rescheduled h .tau s ((s.upd p fun x => { x with lock := l }).setCpu h c) where
  proc := by
    rw [setCpu_proc]
    exact upd_all (P := fun q x => x = { s.proc q with lock := x.lock, state := x.state }) rfl
      fun _ => rfl
  state := by
    rw [setCpu_proc]
    exact upd_all (P := fun q x => x.state = (s.proc q).state ∨ _) (.inl rfl) fun _ => .inl rfl
  label := .inl rfl
  rest := rfl

theorem schedulerStep_rescheduled (hstep : schedulerStep h s = some (e, s')) :
    Rescheduled h e s s' := by
  unfold schedulerStep at hstep
  split at hstep
  · split at hstep
    · obtain ⟨-, hstep⟩ := Option.ite_none_right_eq_some.mp hstep
      cases hstep
      exact .relock
    · cases hstep
      exact ⟨fun _ => rfl, fun _ => .inl rfl, .inl rfl, rfl⟩
  · next p hp =>
    split at hstep
    · next hr =>
      cases hstep
      refine ⟨?_, ?_, .inr ⟨p, rfl⟩, rfl⟩
      · rw [setCpu_proc]
        exact upd_all (P := fun q x => x = { s.proc q with lock := x.lock, state := x.state }) rfl
          fun _ => rfl
      · intro q
        by_cases hq : q = p
        · subst hq
          exact .inr ⟨rfl, hr, by simp⟩
        · simp [hq]
    · cases hstep
      exact .relock
  · cases hstep
  · cases hstep
    exact .relock

/-- **Turns**: all that a step of the system can be. -/
inductive Turn (s : State N H) : Action N H → Event N H → State N H → Prop where
  | run (h : Fin H) (p : Fin N) (d : Choice) (e : Event N H) (s₁ s' : State N H) (sw : Bool) :
      (s.cpu h).pc = .running p → Move h p s e s₁ sw → s' = { s₁ with cpu := s'.cpu } →
      Turn s (.run h d) e s'
  | scheduler (h : Fin H) (e : Event N H) (s' : State N H) : Rescheduled h e s s' →
      Turn s (.scheduler h) e s'
  | wakeup (n : Nat) (q : Fin N) : (s.proc q).lock = none →
      Turn s (.wakeup n q) (.wakeup q) (s.wake (some (.other n)) q)

theorem exec_turn (hex : exec a s = some (e, s')) : Turn s a e s' := by
  cases a with
  | scheduler h => exact .scheduler h e s' (schedulerStep_rescheduled hex)
  | run h d =>
    simp only [exec] at hex
    split at hex
    · next p hp =>
      obtain ⟨⟨e', s1, sw⟩, hstep, heq⟩ := Option.map_eq_some_iff.mp hex
      cases heq
      refine .run h p d e' s1 _ sw hp (procStep_move hstep) ?_
      cases sw <;> rfl
    · cases hex
  | wakeup n q =>
    obtain ⟨hl, hex⟩ := Option.ite_none_right_eq_some.mp hex
    cases hex
    exact .wakeup n q hl

/-! ## 2. States -/

/-- **State changes** of slot `q` in a step with label `e`. -/
inductive Changes (e : Event N H) (q : Fin N) : ProcState → ProcState → Prop where
  | same (st : ProcState) : Changes e q st st
  | alloc (p : Fin N) : e = .alloc p q → Changes e q .UNUSED .USED
  | start : e = .tau → Changes e q .USED .RUNNABLE
  | dispatch (h : Fin H) : e = .dispatch h q → Changes e q .RUNNABLE .RUNNING
  | yield : e = .tau → Changes e q .RUNNING .RUNNABLE
  | sleep : e = .tau → Changes e q .RUNNING .SLEEPING
  | wake : e.wakes q = true → Changes e q .SLEEPING .RUNNABLE
  | exit (status : Int) : e = .exited q status → Changes e q .RUNNING .ZOMBIE
  | free (p : Fin N) (pid : BitVec 32) (status : Option Int) : e = .waited p q pid status →
      Changes e q .ZOMBIE .UNUSED

theorem Own.changes (ho : Own h p e x y sw) (hx : x.state = .RUNNING) :
    Changes e p x.state y.state := by
  cases ho with
  | keep hs | acquire _ _ hs | inside _ hs | release _ hs =>
    rw [hs]
    exact .same _
  | swtch he _ hs =>
    rw [hx]
    rcases hs with hs | hs
    · rw [hs]
      exact .yield he
    · rw [hs]
      exact .sleep he
  | exit status he _ _ hs =>
    rw [hx, hs]
    exact .exit status he

theorem Other.changes (ho : Other e q x y) : Changes e q x.state y.state := by
  cases ho with
  | keep hs =>
    rw [hs]
    exact .same _
  | alloc p he _ hx hs =>
    rw [hx, hs]
    exact .alloc p he
  | unalloc _ hx hs =>
    rw [hx, hs]
    exact .same _
  | start he _ hx hs =>
    rw [hx, hs]
    exact .start he
  | wake he _ hx hs =>
    rw [hx, hs]
    exact .wake he
  | free p pid status he _ hx hs =>
    rw [hx, hs]
    exact .free p pid status he

variable {st st' : ProcState}

/-- A slot comes into use where `allocproc` takes it. -/
theorem Changes.used (hc : Changes e q st st') (hst' : st' ≠ .UNUSED) :
    st ≠ .UNUSED ∨ ∃ p, e = .alloc p q := by
  cases hc with
  | same => exact .inl hst'
  | alloc p he => exact .inr ⟨p, he⟩
  | free => exact absurd rfl hst'
  | _ => exact .inl nofun

/-- **Every step** changes states in these ways only. -/
theorem Sched.changes (hs : Sched s) (hex : Process.exec a s = some (e, s')) (q : Fin N) :
    Changes e q (s.proc q).state (s'.proc q).state := by
  cases exec_turn hex with
  | run h p d e s1 s' sw hp hmove hs' =>
    have hrun := (hs.cpu_running hp).2
    have he := hmove.effect hrun (hs.forks p)
    rw [hs']
    change Changes e q (s.proc q).state (s1.proc q).state
    by_cases hq : q = p
    · subst hq
      exact he.own.changes hrun
    · exact (he.other q hq).changes
  | scheduler h e s' hr =>
    rcases hr.state q with hst | ⟨he, hst, hst'⟩
    · rw [hst]
      exact .same _
    · rw [hst, hst']
      exact .dispatch h he
  | wakeup n r hl =>
    obtain ⟨f, hf, ho, -⟩ := other_wake (s := s) (d := some (.other n)) hl
    rw [hf]
    exact upd_all (P := fun q x => Changes (.wakeup r) q (s.proc q).state x.state) ho.changes
      (fun _ => .same _) q

/-- The label of a section of `wakeup` or `kill`. -/
def Event.isWakeup (e : Event N H) : Prop := ∃ q, e.wakes q = true

section

variable (hc : Changes e q st st')
include hc

/-- A step that makes a process RUNNING. -/
theorem Changes.running (hst : st ≠ .RUNNING)
    (hst' : st' = .RUNNING) : (∃ h, e = .dispatch h q) ∧ st = .RUNNABLE := by
  cases hc with
  | same => exact absurd hst' hst
  | dispatch h he => exact ⟨⟨h, he⟩, rfl⟩
  | _ => cases hst'

/-- A section of `wakeup` or `kill`. -/
theorem Changes.wakeup (he : e.isWakeup) (hst : st' ≠ st) : st = .SLEEPING ∧ st' = .RUNNABLE := by
  obtain ⟨r, hr⟩ := he
  cases hc with
  | same => exact absurd rfl hst
  | wake => exact ⟨rfl, rfl⟩
  | alloc _ he | start he | dispatch _ he | yield he | sleep he | exit _ he | free _ _ _ he =>
    rw [he] at hr
    cases hr

theorem Changes.zombie (hst : st = .ZOMBIE) : st' = .ZOMBIE ∨ st' = .UNUSED := by
  cases hc with
  | same => exact .inl hst
  | free => exact .inr rfl
  | _ => cases hst

theorem Changes.unused (hst : st = .UNUSED) : st' = .UNUSED ∨ st' = .USED := by
  cases hc with
  | same => exact .inl hst
  | alloc => exact .inr rfl
  | _ => cases hst

end

/-- A process is made RUNNING by a scheduler. -/
theorem Turn.dispatch {q : Fin N} (hturn : Turn s a (.dispatch h q) s') : a = .scheduler h := by
  cases hturn with
  | run h' p d _ s1 s' sw hp hmove hs' => cases hmove
  | scheduler h' _ s' hr =>
    rcases hr.label with he | ⟨r, he⟩
    · cases he
    · rw [(Event.dispatch.inj he).1]

/-- Whose lock is free is RUNNING where a hart has it as its process. -/
theorem Sched.running_iff (hs : Sched s) (hl : (s.proc p).lock = none) :
    (s.proc p).state = .RUNNING ↔ ∃! h, (s.cpu h).proc = some p := by
  constructor
  · intro hp
    obtain ⟨h, hh⟩ := hs.running p hp
    have hproc := (hs.cpu_running hh).1
    exact ⟨h, hproc, fun h' hh' => hs.unique h' h p hh' hproc⟩
  · rintro ⟨h, hproc, -⟩
    have hok := hs.cpu h
    unfold Cpu.Ok at hok
    split at hok
    · rw [hok] at hproc
      cases hproc
    · rw [hok] at hproc
      cases hproc
    · rw [hok.1] at hproc
      exact Option.some.inj hproc ▸ hok.2
    · -- back in the scheduler, which still holds the lock
      next r hr =>
      have hfree := (hs.lock p).free hl h
      rw [hok.1] at hproc
      simp [Cpu.holdsLock, hr, Option.some.inj hproc] at hfree

/-! ## 3. Pids -/

/-- The fields that few moves change. -/
structure Data (N : Nat) where
  pid : BitVec 32
  killed : Bool
  xstate : Int
  parent : Option (Fin N)

def Proc.data (x : Proc N H) : Data N := ⟨x.pid, x.killed, x.xstate, x.parent⟩

/-- The data of a process table. -/
def dataOf (t : Fin N → Proc N H) (q : Fin N) : Data N := (t q).data

/-- The labels of the steps that change data of one slot. -/
def Event.isData : Event N H → Bool
  | .alloc _ _ | .exited _ _ | .waited _ _ _ _ | .killed _ _ _ | .trapped _ => true
  | _ => false

/-- **Data moves**: what a move of `p` with label `e` does to the data of the table. -/
inductive DataMove (p : Fin N) (s : State N H) (e : Event N H) (t : Fin N → Proc N H) : Prop where
  | keep : e.isData = false → dataOf t = dataOf s.proc → DataMove p s e t
  | trap : e = .trapped p →
      dataOf t = update (dataOf s.proc) p { dataOf s.proc p with killed := true } → DataMove p s e t
  | alloc (q : Fin N) : e = .alloc p q → (s.proc q).state = .UNUSED →
      dataOf t = update (dataOf s.proc) q { dataOf s.proc q with pid := s.nextpid } →
        DataMove p s e t
  /-- `freeproc`. -/
  | clear (q : Fin N) : (e = .tau ∨ ∃ pid status, e = .waited p q pid status) →
      (t q).state = .UNUSED →
      dataOf t = update (dataOf s.proc) q ⟨0, false, 0, none⟩ → DataMove p s e t
  | parent (np : Fin N) : e = .tau → (s.proc p).pc = .forkParent np → s.wait_lock = none →
      dataOf t = update (dataOf s.proc) np { dataOf s.proc np with parent := some p } →
        DataMove p s e t
  | reparent (status : Int) (q : Fin N) : e = .tau → (s.proc p).pc = .exitReparent status q →
      dataOf t = update (dataOf s.proc) q { dataOf s.proc q with parent := some s.initproc } →
      DataMove p s e t
  | exit (status : Int) : e = .exited p status →
      dataOf t = update (dataOf s.proc) p { dataOf s.proc p with xstate := status } →
        DataMove p s e t
  | kill (q : Fin N) : e = .killed p (s.proc q).pid q →
      dataOf t = update (dataOf s.proc) q { dataOf s.proc q with killed := true } → DataMove p s e t

section Data

variable {f : Proc N H → Proc N H} {c : PC N}

theorem dataOf_upd : dataOf (s.upd p f).proc = update (dataOf s.proc) p (f (s.proc p)).data := by
  funext q
  exact update_both (motive := fun _ (x : Proc N H) d => x.data = d) q rfl fun _ _ => rfl

@[simp] theorem dataOf_goto : dataOf (s.goto p c).proc = dataOf s.proc := by
  unfold State.goto
  rw [dataOf_upd]
  exact update_eq_self p (dataOf s.proc)

/-- A change of fields that are not data. -/
theorem dataOf_upd_eq (hf : (f (s.proc p)).data = (s.proc p).data) :
    dataOf (s.upd p f).proc = dataOf s.proc := by
  rw [dataOf_upd, hf]
  exact update_eq_self p (dataOf s.proc)

@[simp] theorem dataOf_wake {d : Option (Chan N)} : dataOf (s.wake d q).proc = dataOf s.proc := by
  unfold State.wake
  split
  · exact dataOf_upd_eq rfl
  · rfl

end Data

/-- **Inversion** for the data. -/
theorem Move.data (hmove : Move h p s e s' sw) : DataMove p s e s'.proc := by
  cases hmove with
  | yieldLock | sleepLock | waitLock | sleepUnlock | yield | sleep | resume | woken =>
    exact .keep rfl (dataOf_upd_eq rfl)
  | waitUnlock c addr =>
    exact .keep rfl (dataOf_upd_eq (s := s) (p := p)
      (f := fun x => { x with pc := .waitAcquire addr, switch := .sleepUnlocked c }) rfl)
  | goto | exitAcquire | reparentNext | reparented | wakeInitSelf | wokenInit | wakeParentSelf
  | wokenParent | waitAcquire | scan | waitFail | scanned => exact .keep rfl dataOf_goto
  | wakeInit | wakeParent => exact .keep rfl (dataOf_goto.trans dataOf_wake)
  | start np => exact .keep rfl (dataOf_goto.trans (dataOf_upd_eq rfl))
  | trap => exact .trap rfl dataOf_upd
  | alloc k q _ _ _ hu => exact .alloc q rfl hu (dataOf_goto.trans dataOf_upd)
  | unalloc k q _ hpc _ hu =>
    refine .clear q (.inl rfl) ?_ (dataOf_goto.trans dataOf_upd)
    by_cases hqp : q = p
    · subst hqp
      simp [Proc.freeproc]
    · simp [hqp, Proc.freeproc]
  | parent np _ hpc hfree => exact .parent np rfl hpc hfree (dataOf_goto.trans dataOf_upd)
  | reparent status q _ hpc _ => exact .reparent status q rfl hpc (dataOf_goto.trans dataOf_upd)
  | zombie status =>
    exact .exit status rfl (dataOf_upd (s := s) (p := p)
      (f := fun x => { x with lock := some h, xstate := status, state := .ZOMBIE, pc := .run }))
  | free addr q =>
    refine .clear q (.inr ⟨_, _, rfl⟩) ?_ (dataOf_goto.trans dataOf_upd)
    by_cases hqp : q = p
    · subst hqp
      simp [Proc.freeproc]
    · simp [hqp, Proc.freeproc]
  | kill pid q _ _ _ hpid =>
    subst hpid
    exact .kill q rfl (dataOf_goto.trans dataOf_upd)

/-- `allocpid` is called where a slot is allocated. -/
theorem Move.given (hmove : Move h p s e s' sw) :
    (s'.given = s.given ∧ s'.nextpid = s.nextpid ∧ ∀ r q, e ≠ .alloc r q) ∨
      (s'.given = s.given + 1 ∧ s'.nextpid = s.nextpid + 1) := by
  cases hmove with
  | alloc | unalloc => exact .inr ⟨rfl, rfl⟩
  | wakeInit | wakeParent =>
    refine .inl ⟨?_, ?_, fun r q he => by cases he⟩ <;>
    · simp only [State.goto, State.upd, State.wake]
      split <;> rfl
  | _ => exact .inl ⟨rfl, rfl, fun r q he => by cases he⟩

theorem Rescheduled.isData (hr : Rescheduled h e s s') : e.isData = false := by
  rcases hr.label with hl | ⟨t, hl⟩ <;> rw [hl] <;> rfl

/-- **Inversion** for the data, of a step of the system. -/
theorem Turn.data (hturn : Turn s a e s') :
    (e.isData = false ∧ dataOf s'.proc = dataOf s.proc) ∨ ∃ p, DataMove p s e s'.proc := by
  cases hturn with
  | run h p d e s1 s' sw hp hmove hs' =>
    rw [hs']
    exact .inr ⟨p, hmove.data⟩
  | scheduler h e s' hr =>
    refine .inl ⟨hr.isData, ?_⟩
    funext q
    unfold dataOf
    rw [hr.proc q]
    rfl
  | wakeup n q hl => exact .inl ⟨rfl, dataOf_wake⟩

theorem Turn.given (hturn : Turn s a e s') :
    (s'.given = s.given ∧ s'.nextpid = s.nextpid ∧ ∀ r q, e ≠ .alloc r q) ∨
      (s'.given = s.given + 1 ∧ s'.nextpid = s.nextpid + 1) := by
  cases hturn with
  | run h p d e s1 s' sw hp hmove hs' =>
    rw [hs']
    exact hmove.given
  | scheduler h e s' hr =>
    rw [hr.rest]
    refine .inl ⟨rfl, rfl, ?_⟩
    intro r q he
    have := hr.isData
    rw [he] at this
    cases this
  | wakeup n q hl =>
    refine .inl ⟨?_, ?_, nofun⟩ <;>
    · unfold State.wake
      split <;> rfl

/-- **Pids** are the numbers that `allocpid` has given out, each once. -/
structure Pids (s : State N H) : Prop where
  nextpid : s.nextpid = BitVec.ofNat 32 (s.given + 1)
  num : ∃ num : Fin N → Nat,
    (∀ q, (s.proc q).state ≠ .UNUSED → num q ≤ s.given ∧ (s.proc q).pid = BitVec.ofNat 32 (num q)) ∧
    ∀ q r, (s.proc q).state ≠ .UNUSED → (s.proc r).state ≠ .UNUSED → num q = num r → q = r

theorem pids_init (hN : 0 < N) : Pids (init hN : State N H) where
  nextpid := rfl
  num := by
    have hzero : ∀ q, ((init hN : State N H).proc q).state ≠ .UNUSED → q = ⟨0, hN⟩ := by
      intro q hq
      by_contra hne
      exact hq (by simp [init, hne])
    refine ⟨fun _ => 1, ?_, ?_⟩
    · intro q hq
      rw [hzero q hq]
      simp [init]
    · intro q r hq hr _
      rw [hzero q hq, hzero r hr]

/-- Slots that keep their pids, or become UNUSED. -/
theorem Pids.keep (hs : Pids s) (hnext : s'.nextpid = BitVec.ofNat 32 (s'.given + 1))
    (hgiven : s.given ≤ s'.given)
    (hkeep : ∀ q, (s'.proc q).state ≠ .UNUSED →
      (s.proc q).state ≠ .UNUSED ∧ (s'.proc q).pid = (s.proc q).pid) : Pids s' where
  nextpid := hnext
  num := by
    obtain ⟨num, hnum, hinj⟩ := hs.num
    refine ⟨num, ?_, ?_⟩
    · intro q hq
      obtain ⟨hold, hpid⟩ := hkeep q hq
      rw [hpid]
      exact ⟨(hnum q hold).1.trans hgiven, (hnum q hold).2⟩
    · intro q r hq hr
      exact hinj q r (hkeep q hq).1 (hkeep r hr).1

/-- A slot that gets the next pid. -/
theorem Pids.alloc (hs : Pids s) (hnext : s'.nextpid = BitVec.ofNat 32 (s'.given + 1))
    (hgiven : s'.given = s.given + 1) (hpid : (s'.proc q).pid = s.nextpid)
    (hkeep : ∀ r, r ≠ q → (s'.proc r).state ≠ .UNUSED →
      (s.proc r).state ≠ .UNUSED ∧ (s'.proc r).pid = (s.proc r).pid) : Pids s' where
  nextpid := hnext
  num := by
    obtain ⟨num, hnum, hinj⟩ := hs.num
    -- no other slot has the number that is given out now
    have hlt : ∀ r, r ≠ q → (s'.proc r).state ≠ .UNUSED → num r < s.given + 1 := by
      intro r hrq hr
      exact lt_succ_of_le (hnum r (hkeep r hrq hr).1).1
    refine ⟨update num q (s.given + 1), ?_, ?_⟩
    · intro r hr
      by_cases hrq : r = q
      · subst hrq
        rw [update_self, hpid, hs.nextpid, hgiven]
        exact ⟨le_refl _, rfl⟩
      · rw [update_of_ne hrq, (hkeep r hrq hr).2, hgiven]
        have := hnum r (hkeep r hrq hr).1
        exact ⟨this.1.trans (le_succ _), this.2⟩
    · intro r t hr ht heq
      by_cases hrq : r = q
      · by_cases htq : t = q
        · rw [hrq, htq]
        · rw [hrq, update_self, update_of_ne htq] at heq
          have := hlt t htq ht
          omega
      · by_cases htq : t = q
        · rw [htq, update_self, update_of_ne hrq] at heq
          have := hlt r hrq hr
          omega
        · rw [update_of_ne hrq, update_of_ne htq] at heq
          exact hinj r t (hkeep r hrq hr).1 (hkeep t htq ht).1 heq

variable {t : Fin N → Proc N H} {r : Fin N} {d : Data N}

/-- A field of the data that the change of one slot leaves alone. -/
theorem field_of_dataOf {β : Type} (g : Data N → β) (hd : dataOf t = update (dataOf s.proc) q d)
    (hg : r = q → g d = g (dataOf s.proc q)) : g (dataOf t r) = g (dataOf s.proc r) := by
  rw [hd]
  by_cases hrq : r = q
  · rw [hrq, update_self, hg hrq]
  · rw [update_of_ne hrq]

theorem ne_alloc (he : e.isData = false) (r q : Fin N) : e ≠ .alloc r q := by
  intro hr
  rw [hr] at he
  cases he

/-- What a step with the label of an allocation does. -/
theorem DataMove.of_alloc (hd : DataMove p s e t) (he : e = .alloc r q) :
    r = p ∧ (s.proc q).state = .UNUSED ∧
    dataOf t = update (dataOf s.proc) q { dataOf s.proc q with pid := s.nextpid } := by
  subst he
  cases hd with
  | alloc q' he hu hd =>
    cases he
    exact ⟨rfl, hu, hd⟩
  | clear _ he => rcases he with he | ⟨pid, status, he⟩ <;> cases he
  | keep he | trap he | parent _ he | reparent _ _ he | exit _ he | kill _ he => cases he

/-- **The pid** of a slot that stays in use changes where `allocproc` takes it. -/
theorem DataMove.pid (hd : DataMove p s e t)
    (hr : (t r).state ≠ .UNUSED) (hne : e ≠ .alloc p r) : (t r).pid = (s.proc r).pid := by
  cases hd with
  | keep _ hd => exact congrArg Data.pid (congrFun hd r)
  | alloc q he _ hd => exact field_of_dataOf Data.pid hd fun hrq => absurd (hrq ▸ he) hne
  | clear q _ hu hd => exact field_of_dataOf Data.pid hd fun hrq => absurd (hrq ▸ hu) hr
  | trap _ hd | parent _ _ _ _ hd | reparent _ _ _ _ hd | exit _ _ hd | kill _ _ hd =>
    exact field_of_dataOf Data.pid hd fun _ => rfl

/-- **Every step** keeps the pids apart. -/
theorem Pids.exec (hs : Sched s) (hpids : Pids s) (hex : Process.exec a s = some (e, s')) :
    Pids s' := by
  have hturn := exec_turn hex
  have hused := fun r hr => (hs.changes hex r).used hr
  have hgiven : s'.nextpid = BitVec.ofNat 32 (s'.given + 1) ∧ s.given ≤ s'.given := by
    rcases hturn.given with ⟨hg, hn, -⟩ | ⟨hg, hn⟩
    · rw [hg, hn]
      exact ⟨hpids.nextpid, le_refl _⟩
    · rw [hg, hn, hpids.nextpid]
      exact ⟨(BitVec.ofNat_add _ _).symm, le_succ _⟩
  rcases hturn.data with ⟨he, hd⟩ | ⟨p, hd⟩
  · refine hpids.keep hgiven.1 hgiven.2 fun r hr => ⟨?_, congrArg Data.pid (congrFun hd r)⟩
    exact (hused r hr).resolve_right fun ⟨q, hq⟩ => ne_alloc he q r hq
  · by_cases halloc : ∃ q, e = .alloc p q
    · obtain ⟨q, rfl⟩ := halloc
      have hg := hturn.given.resolve_left fun hno => hno.2.2 p q rfl
      have hpid := congrArg Data.pid (congrFun (hd.of_alloc rfl).2.2 q)
      rw [update_self] at hpid
      refine hpids.alloc hgiven.1 hg.1 hpid ?_
      intro r hrq hr
      refine ⟨(hused r hr).resolve_right ?_, hd.pid hr ?_⟩
      · intro ⟨t, ht⟩
        exact hrq (Event.alloc.inj ht).2.symm
      · intro he
        exact hrq (Event.alloc.inj he).2.symm
    · refine hpids.keep hgiven.1 hgiven.2 ?_
      intro r hr
      have hne : e ≠ .alloc p r := fun he => halloc ⟨r, he⟩
      refine ⟨(hused r hr).resolve_right ?_, hd.pid hr hne⟩
      intro ⟨t, ht⟩
      exact hne ((hd.of_alloc ht).1 ▸ ht)

theorem pids_reachable (hr : Reachable (system N H) s) : Sched s ∧ Pids s := by
  apply hr.invariant
  · intro s hs
    obtain ⟨hN, rfl⟩ := hs
    exact ⟨sched_init hN, pids_init hN⟩
  · intro s e s' hs hstep
    obtain ⟨a, hex⟩ := hstep
    exact ⟨hs.1.exec hex, hs.2.exec hs.1 hex⟩

/-- 2^31, where an `int` overflows. -/
def pidLimit : Nat := 2147483648

/-- Numbers below 2^32 are told apart by their low 32 bits. -/
theorem Pids.unique (hs : Pids s) (hgiven : s.given < pidLimit) (hq : (s.proc q).state ≠ .UNUSED)
    (hr : (s.proc r).state ≠ .UNUSED) (hpid : (s.proc q).pid = (s.proc r).pid) : q = r := by
  obtain ⟨num, hnum, hinj⟩ := hs.num
  obtain ⟨hlq, hpq⟩ := hnum q hq
  obtain ⟨hlr, hpr⟩ := hnum r hr
  apply hinj q r hq hr
  rw [hpq, hpr] at hpid
  unfold pidLimit at hgiven
  have := congrArg BitVec.toNat hpid
  rw [BitVec.toNat_ofNat, BitVec.toNat_ofNat, mod_eq_of_lt (by omega), mod_eq_of_lt (by omega)]
    at this
  exact this

/-- **The process table and the schedulers**, for any number of harts: a process
    runs on one of them at most, and, when its lock is free, is RUNNING if it is the
    process of exactly one; only a scheduler makes it RUNNING, from RUNNABLE; wakeups
    and `kill` change SLEEPING processes only; a ZOMBIE becomes UNUSED and an UNUSED
    slot USED; pids are not shared before they run out. -/
theorem scheduler_safe (hr : Reachable (system N H) s) :
    (∀ h h' p, (s.cpu h).pc = .running p → (s.cpu h').pc = .running p → h = h') ∧
    (∀ p, (s.proc p).lock = none →
      ((s.proc p).state = .RUNNING ↔ ∃! h, (s.cpu h).proc = some p)) ∧
    (∀ a e s', exec a s = some (e, s') → ∀ p,
      ((s.proc p).state ≠ .RUNNING → (s'.proc p).state = .RUNNING →
        (∃ h, a = .scheduler h) ∧ (s.proc p).state = .RUNNABLE) ∧
      (e.isWakeup → (s'.proc p).state ≠ (s.proc p).state →
        (s.proc p).state = .SLEEPING ∧ (s'.proc p).state = .RUNNABLE) ∧
      ((s.proc p).state = .ZOMBIE → (s'.proc p).state = .ZOMBIE ∨ (s'.proc p).state = .UNUSED) ∧
      ((s.proc p).state = .UNUSED → (s'.proc p).state = .UNUSED ∨ (s'.proc p).state = .USED)) ∧
    (s.given < pidLimit → ∀ q r, (s.proc q).state ≠ .UNUSED → (s.proc r).state ≠ .UNUSED →
      (s.proc q).pid = (s.proc r).pid → q = r) := by
  obtain ⟨hs, hpids⟩ := pids_reachable hr
  refine ⟨?_, fun p => hs.running_iff, ?_, fun hg q r hq hr => hpids.unique hg hq hr⟩
  · intro h h' p hh hh'
    exact hs.unique h h' p (hs.cpu_running hh).1 (hs.cpu_running hh').1
  · intro a e s' hex p
    have hc := hs.changes hex p
    refine ⟨?_, hc.wakeup, hc.zombie, hc.unused⟩
    intro hst hst'
    obtain ⟨⟨h, rfl⟩, hst⟩ := hc.running hst hst'
    exact ⟨⟨h, (exec_turn hex).dispatch⟩, hst⟩

/-- **A child that is being set up** is USED, on no hart, and the child of one
    `fork` only. -/
theorem fork_exclusive (hr : Reachable (system N H) s) (hf : (s.proc p).pc.forks = some q) :
    (s.proc q).state = .USED ∧ (∀ h, (s.cpu h).pc ≠ .running q) ∧
    ∀ r, (s.proc r).pc.forks = some q → r = p := by
  obtain ⟨hs, -⟩ := pids_reachable hr
  refine ⟨hs.forks p q hf, fun h hh => ?_, fun r hr => hs.forker r p q hr hf⟩
  have hrun := (hs.cpu_running hh).2
  rw [hs.forks p q hf] at hrun
  cases hrun

section TwoHarts

def hart0 : Fin 2 := ⟨0, Nat.zero_lt_two⟩

def hart1 : Fin 2 := ⟨1, Nat.one_lt_two⟩

def initproc : Fin 2 := ⟨0, Nat.zero_lt_two⟩

def child : Fin 2 := ⟨1, Nat.one_lt_two⟩

/-- The first hart runs init, which forks; the second hart finds the child. -/
def twoRunning : List (Action 2 2) :=
  [.scheduler hart0, .scheduler hart0, .run hart0 (.next true), .run hart0 .fork,
   .run hart0 (.next true), .run hart0 (.next true), .run hart0 (.next true),
     .run hart0 (.next true),
   .scheduler hart1, .scheduler hart1, .scheduler hart1, .scheduler hart1]

theorem scheduler_safe_twoHarts :
    ∃ s : State 2 2, Reachable (system 2 2) s ∧ (s.cpu hart0).pc = .running initproc ∧
      (s.cpu hart1).pc = .running child ∧ (∀ h, (s.cpu h).pc = .running child → h = hart1) ∧
      (s.proc initproc).pid ≠ (s.proc child).pid := by
  obtain ⟨tr, s, htr, ht⟩ := exists_trace_of_replay exec twoRunning
    (fun _ (s : State 2 2) => ((s.cpu hart0).pc == .running initproc) &&
      ((s.cpu hart1).pc == .running child) && (s.given == 2) &&
      ((s.proc initproc).state == .RUNNING) && ((s.proc child).state == .RUNNING))
    (initial_init Nat.zero_lt_two) (by decide)
  simp only [Bool.and_eq_true, beq_iff_eq] at ht
  obtain ⟨⟨⟨⟨h0, h1⟩, hg⟩, hp⟩, hc⟩ := ht
  have hr : Reachable (system 2 2) s := ⟨tr, htr⟩
  have hsafe := scheduler_safe hr
  refine ⟨s, hr, h0, h1, fun h hh => hsafe.1 h hart1 child hh h1, ?_⟩
  intro hpid
  have := hsafe.2.2.2 (by rw [hg]; decide) initproc child (by rw [hp]; nofun)
    (by rw [hc]; nofun) hpid
  exact absurd this (by decide)

theorem fork_exclusive_child : ∃ s : State 2 2, Reachable (system 2 2) s ∧
    (s.proc initproc).pc.forks = some child ∧ (s.proc child).state = .USED := by
  obtain ⟨tr, s, h, hs⟩ := exists_trace_of_replay exec (twoRunning.take 6)
    (fun _ (s : State 2 2) => (s.proc initproc).pc.forks = some child)
    (initial_init Nat.zero_lt_two) (by decide)
  have hf : (s.proc initproc).pc.forks = some child := of_decide_eq_true hs
  exact ⟨s, ⟨tr, h⟩, hf, (fork_exclusive ⟨tr, h⟩ hf).1⟩

end TwoHarts

/-! ## 4. Killed flags -/

/-- No `kill` marks a slot that is not in use. -/
def NoStrayKill (s : State N H) (e : Event N H) : Prop :=
  ∀ p pid q, e = .killed p pid q → (s.proc q).state ≠ .UNUSED

/-- What is expected of the killed flags in a step: a process is not born with the
    flag set, and it is set by a `kill` of its pid or by its own trap. -/
def KilledOk (s : State N H) (e : Event N H) (s' : State N H) : Prop :=
  (∀ p q, e = .alloc p q → (s'.proc q).killed = false) ∧
  ∀ q, (s.proc q).killed = false → (s'.proc q).killed = true →
    (∃ p, e = .killed p (s.proc q).pid q ∧ (s.proc q).state ≠ .UNUSED) ∨ e = .trapped q

/-- The runs in which no `kill` marks a slot that is not in use. -/
def careful (N H : Nat) : System (State N H) (Event N H) :=
  { system N H with step := fun s e s' => (system N H).step s e s' ∧ NoStrayKill s e }

section Killed

variable {t : Fin N → Proc N H} {pid : BitVec 32}

theorem DataMove.of_killed (hd : DataMove p s e t)
    (he : e = .killed r pid q) : (t q).killed = true := by
  subst he
  cases hd with
  | kill q' he hd =>
    cases he
    have hk := congrArg Data.killed (congrFun hd q)
    rwa [update_self] at hk
  | clear _ he => rcases he with he | ⟨pid, status, he⟩ <;> cases he
  | keep he | trap he | parent _ he | reparent _ _ he | exit _ he | alloc _ he => cases he

/-- The slot that `wait` frees. -/
theorem DataMove.of_waited {status : Option Int} (hd : DataMove p s e t)
    (he : e = .waited r q pid status) :
    (t q).state = .UNUSED ∧ dataOf t q = ⟨0, false, 0, none⟩ := by
  subst he
  cases hd with
  | clear q' he hu hd =>
    rcases he with he | ⟨pid', status', he⟩
    · cases he
    · cases he
      exact ⟨hu, by rw [hd, update_self]⟩
  | keep he | trap he | parent _ he | reparent _ _ he | exit _ he | alloc _ he | kill _ he =>
    cases he

theorem killed_of_dataOf (hd : dataOf t = update (dataOf s.proc) q d)
    (hk : d.killed = true → (s.proc q).killed = true) (hr : (t r).killed = true) :
    (s.proc r).killed = true := by
  have hkr := congrArg Data.killed (congrFun hd r)
  by_cases hrq : r = q
  · subst hrq
    rw [update_self] at hkr
    exact hk (hkr.symm.trans hr)
  · rw [update_of_ne hrq] at hkr
    exact hkr.symm.trans hr

/-- **The killed flag** is set by `kill` and by traps. -/
theorem DataMove.killed (hd : DataMove p s e t) (hr : (t r).killed = true) :
    (s.proc r).killed = true ∨ e = .killed p (s.proc r).pid r ∨ e = .trapped r := by
  cases hd with
  | keep _ hd => exact .inl ((congrArg Data.killed (congrFun hd r)).symm.trans hr)
  | trap he hd =>
    by_cases hrp : r = p
    · exact .inr (.inr (hrp ▸ he))
    · exact .inl ((field_of_dataOf Data.killed hd fun h => absurd h hrp).symm.trans hr)
  | kill q he hd =>
    by_cases hrq : r = q
    · exact .inr (.inl (hrq ▸ he))
    · exact .inl ((field_of_dataOf Data.killed hd fun h => absurd h hrq).symm.trans hr)
  | clear _ _ _ hd => exact .inl (killed_of_dataOf hd nofun hr)
  | alloc _ _ _ hd | parent _ _ _ _ hd | reparent _ _ _ _ hd | exit _ _ hd =>
    exact .inl (killed_of_dataOf hd id hr)

end Killed

theorem Turn.killed (hturn : Turn s a e s') (hr : (s'.proc r).killed = true) :
    (s.proc r).killed = true ∨ (∃ p, e = .killed p (s.proc r).pid r) ∨ e = .trapped r := by
  rcases hturn.data with ⟨-, hd⟩ | ⟨p, hd⟩
  · exact .inl ((congrArg Data.killed (congrFun hd r)).symm.trans hr)
  · rcases hd.killed hr with hk | hk | hk
    · exact .inl hk
    · exact .inr (.inl ⟨p, hk⟩)
    · exact .inr (.inr hk)

/-- A process that marks itself is RUNNING. -/
theorem Turn.trapped (hturn : Turn s a (.trapped q) s') (hs : Sched s) :
    (s.proc q).state = .RUNNING := by
  cases hturn with
  | run h p d _ s1 s' sw hp hmove hs' =>
    cases hmove
    exact (hs.cpu_running hp).2
  | scheduler h _ s' hr => exact absurd hr.isData nofun

/-- A slot that is not in use after a step was not in use, or has been freed. -/
theorem Changes.unused_of (hc : Changes e q st st') (hst' : st' = .UNUSED) :
    st = .UNUSED ∨ ∃ p pid status, e = .waited p q pid status := by
  cases hc with
  | same => exact .inl hst'
  | free p pid status he => exact .inr ⟨p, pid, status, he⟩
  | _ => cases hst'

/-- **The flag is clear** in the slots that are not in use. -/
theorem unused_killed (hs : Sched s)
    (hclear : ∀ q, (s.proc q).state = .UNUSED → (s.proc q).killed = false)
    (hex : exec a s = some (e, s')) (hkill : NoStrayKill s e) (q : Fin N)
    (hq : (s'.proc q).state = .UNUSED) : (s'.proc q).killed = false := by
  have hturn := exec_turn hex
  rcases (hs.changes hex q).unused_of hq with hold | ⟨p, pid, status, he⟩
  · -- not in use before: neither kill nor a trap can have set the flag
    by_contra hk
    rcases hturn.killed (Bool.eq_true_of_not_eq_false hk) with hk | ⟨p, he⟩ | he
    · rw [hclear q hold] at hk
      cases hk
    · exact hkill p _ q he hold
    · have hrun := (he ▸ hturn).trapped hs
      rw [hold] at hrun
      cases hrun
  · -- freed: freeproc clears the flag
    rcases hturn.data with ⟨hno, -⟩ | ⟨r, hd⟩
    · rw [he] at hno
      cases hno
    · exact congrArg Data.killed (hd.of_waited he).2

theorem careful_reachable (hr : Reachable (careful N H) s) :
    Sched s ∧ ∀ q, (s.proc q).state = .UNUSED → (s.proc q).killed = false := by
  apply hr.invariant
  · intro s hs
    obtain ⟨hN, rfl⟩ := hs
    exact ⟨sched_init hN, fun _ _ => rfl⟩
  · intro s e s' hs hstep
    obtain ⟨⟨a, hex⟩, hkill⟩ := hstep
    exact ⟨hs.1.exec hex, unused_killed hs.1 hs.2 hex hkill⟩

/-- **A fresh process is not born killed**, in the runs without stray kills; and the
    first stray kill is where this ends. -/
theorem killed_flag (hr : Reachable (careful N H) s) {a : Action N H}
    (hex : exec a s = some (e, s')) : NoStrayKill s e ↔ KilledOk s e s' := by
  obtain ⟨hs, hclear⟩ := careful_reachable hr
  have hturn := exec_turn hex
  constructor
  · intro hkill
    refine ⟨?_, ?_⟩
    · intro p q he
      -- the slot was not in use, so its flag was clear
      have hu : (s.proc q).state = .UNUSED := by
        rcases hturn.data with ⟨hno, -⟩ | ⟨r, hd⟩
        · exact absurd he (ne_alloc hno p q)
        · exact (hd.of_alloc he).2.1
      by_contra hk
      rcases hturn.killed (Bool.eq_true_of_not_eq_false hk) with hk | ⟨r, he'⟩ | he'
      · rw [hclear q hu] at hk
        cases hk
      · rw [he'] at he
        cases he
      · rw [he'] at he
        cases he
    · intro q hold hnew
      rcases hturn.killed hnew with hk | ⟨p, he⟩ | he
      · rw [hold] at hk
        cases hk
      · exact .inl ⟨p, he, hkill p _ q he⟩
      · exact .inr he
  · intro hok p pid q he hu
    have hnew : (s'.proc q).killed = true := by
      rcases hturn.data with ⟨hno, -⟩ | ⟨r, hd⟩
      · rw [he] at hno
        cases hno
      · exact hd.of_killed he
    rcases hok.2 q (hclear q hu) hnew with ⟨r, -, hused⟩ | he'
    · exact hused hu
    · rw [he'] at he
      cases he

/-- The label of a `kill` that marks a slot. -/
def Event.isKill : Event N H → Bool
  | .killed _ _ _ => true
  | _ => false

/-- A run in which no `kill` marks a slot. -/
theorem careful_of_trace {tr : List (Event N H)} (htr : Trace (system N H) tr s)
    (hno : ∀ e ∈ tr, e.isKill = false) : Reachable (careful N H) s := by
  have hI : (∀ e ∈ tr, e.isKill = false) → Reachable (careful N H) s := by
    refine htr.invariant (I := fun tr s => (∀ e ∈ tr, e.isKill = false) → Reachable (careful N H) s)
      ?_ ?_
    · intro s hs _
      exact .of_init hs
    · intro tr s e s' ih hstep hall
      have he := hall e (List.mem_append_right _ (List.mem_singleton_self e))
      refine (ih fun m hm => hall m (List.mem_append_left _ hm)).step ⟨hstep, ?_⟩
      intro p pid q hk
      rw [hk] at he
      cases he
  exact hI hno

theorem killed_flag_forking :
    ∃ s s' : State 2 2, Reachable (careful 2 2) s ∧
      (∃ a, exec a s = some (.alloc initproc child, s')) ∧ (s'.proc child).killed = false := by
  obtain ⟨tr, s', htr, ht⟩ := exists_trace_of_replay exec (twoRunning.take 6)
    (fun tr _ => (tr.getLast? == some (.alloc initproc child)) && tr.all fun e => !e.isKill)
    (initial_init Nat.zero_lt_two) (by decide)
  simp only [Bool.and_eq_true, beq_iff_eq, List.all_eq_true, Bool.not_eq_true'] at ht
  obtain ⟨hlast, hno⟩ := ht
  obtain ⟨tr, rfl⟩ := List.getLast?_eq_some_iff.mp hlast
  obtain ⟨s, htr, a, hex⟩ := htr.last_step
  have hr := careful_of_trace htr fun e he => hno e (List.mem_append_left _ he)
  exact ⟨s, s', hr, ⟨a, hex⟩, ((killed_flag hr hex).mp nofun).1 initproc child rfl⟩

/-- Before it forks, init calls `kill(0)`. -/
def strayKill : List (Action 2 2) :=
  [.scheduler hart0, .scheduler hart0, .run hart0 (.next true), .run hart0 (.kill 0),
   .run hart0 (.next true), .run hart0 (.next true), .run hart0 .fork,
   .run hart0 (.next true), .run hart0 (.next true)]

/-- **`kill(0)` marks a slot that is not in use**, and the process that gets the slot
    is born killed. -/
theorem killed_flag_fail :
    ∃ tr s, Trace (system 2 2) (tr ++ [.alloc initproc child]) s ∧
      (.killed initproc 0 child ∈ tr) ∧ (s.proc child).killed = true := by
  obtain ⟨tr, s, htr, ht⟩ := exists_trace_of_replay exec strayKill
    (fun tr s => (tr.getLast? == some (.alloc initproc child)) &&
      tr.dropLast.contains (.killed initproc 0 child) && (s.proc child).killed)
    (initial_init Nat.zero_lt_two) (by decide)
  simp only [Bool.and_eq_true, beq_iff_eq, List.contains_iff_mem] at ht
  obtain ⟨⟨hlast, hkill⟩, hborn⟩ := ht
  obtain ⟨tr, rfl⟩ := List.getLast?_eq_some_iff.mp hlast
  rw [List.dropLast_concat] at hkill
  exact ⟨tr, s, htr, hkill, hborn⟩

end NoviceKernel.Process
