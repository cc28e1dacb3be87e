import NoviceKernel.ProcTable
import NoviceKernel.Lib.Count

/-! # exit, wait and reparent

    1. **Slots**: what holds of each slot by itself.
    2. **Family**: parents are alive; what a process inside a section of
       `wait_lock` has found out so far; who is asleep in `wait` has no ZOMBIE child
       that nobody will tell it of.
    3. **Steps**: a step leaves all that alone, or is one of the five that change
       parents, make or free a ZOMBIE, or go to sleep in `wait`.
    4. **Result**: the protocol, and how exits and waits match along a run. -/

namespace NoviceKernel.Process

open TransitionSystem LockPhase Function Count State

variable {N H : Nat} {s s' : State N H} {h : Fin H} {p q r : Fin N} {e : Event N H} {a : Action N H}
  {sw : Bool} {x y : Proc N H} {c : PC N} {f : Proc N H → Proc N H} {i : Fin N}

/-! ## 1. Slots -/

/-- The states of a process that has been started and has not exited. -/
def ProcState.live : ProcState → Bool
  | SLEEPING | RUNNABLE | RUNNING => true
  | _ => false

/-- The program points of `exit`. -/
def PC.exits : PC N → Bool
  | exitAcquire _ | exitReparent _ _ | exitWakeInit _ _ _ | exitWakeParent _ _ _ | exitZombie _ =>
    true
  | _ => false

/-- Asleep in `wait`, or on the way there with `wait_lock` released. -/
def Proc.asleep (x : Proc N H) : Prop :=
  (∃ addr, x.pc = .waitAcquire addr) ∧ (x.state = .SLEEPING ∨ ∃ c, x.switch = .sleepUnlocked c)

/-- What holds of slot `q` by itself; `init` is the slot of init. -/
structure SlotOk (init q : Fin N) (x : Proc N H) : Prop where
  dead : x.state.live = false → x.pc = .run
  unused : x.state = .UNUSED → x.parent = none
  waitSleep : ∀ addr, x.pc = .waitSleep addr → x.switch = .no ∨ x.switch = .sleepLocked (.proc q)
  waitAcquire : ∀ addr, x.pc = .waitAcquire addr → (∀ c, x.switch ≠ .sleepLocked c) ∧
    (∀ c, x.switch = .sleepUnlocked c → c = .proc q) ∧
      (x.state = .SLEEPING → x.chan = some (.proc q))
  init : q = init → x.state.live = true ∧ x.pc.exits = false

namespace SlotOk

variable {i : Fin N}

theorem ne_init (hx : SlotOk i q x) (hd : x.state.live = false) : q ≠ i := by
  intro hq
  rw [(hx.init hq).1] at hd
  cases hd

theorem ne_init_of_exits (hx : SlotOk i q x) (he : x.pc.exits = true) : q ≠ i := by
  intro hq
  rw [(hx.init hq).2] at he
  cases he

/-- Who is past the first half of a switch is not about to sleep in `wait`. -/
theorem ne_waitSleep (hx : SlotOk i q x) (hno : x.switch ≠ .no)
    (hl : ∀ c, x.switch ≠ .sleepLocked c) (addr : Bool) : x.pc ≠ .waitSleep addr := by
  intro hpc
  rcases hx.waitSleep addr hpc with h | h
  · exact hno h
  · exact hl _ h

/-- A process that runs and is not about to give up its hart. -/
theorem running (hrun : y.state = .RUNNING) (hsw : y.switch = .no)
    (hinit : q = i → y.pc.exits = false) : SlotOk i q y where
  dead := by intro hd; rw [hrun] at hd; cases hd
  unused := by intro hu; rw [hrun] at hu; cases hu
  waitSleep := fun _ _ => .inl hsw
  waitAcquire := by
    intro addr _
    rw [hsw]
    refine ⟨nofun, nofun, ?_⟩
    intro hs
    rw [hrun] at hs
    cases hs
  init := by
    intro hq
    rw [hrun]
    exact ⟨rfl, hinit hq⟩

/-- A slot that is not asleep. -/
theorem awake (hx : SlotOk i q x) (hpc : y.pc = x.pc) (hsw : y.switch = x.switch)
    (hparent : y.parent = x.parent) (hlive : y.state.live = x.state.live)
    (hs : y.state ≠ .SLEEPING) (hu : y.state = .UNUSED → x.state = .UNUSED) : SlotOk i q y where
  dead := by
    intro hd
    rw [hpc]
    exact hx.dead (hlive ▸ hd)
  unused := by
    intro hy
    rw [hparent]
    exact hx.unused (hu hy)
  waitSleep := by rw [hpc, hsw]; exact hx.waitSleep
  waitAcquire := by
    intro addr hy
    rw [hpc] at hy
    obtain ⟨hl, hun, -⟩ := hx.waitAcquire addr hy
    rw [hsw]
    exact ⟨hl, hun, fun h => absurd h hs⟩
  init := by rw [hpc, hlive]; exact hx.init

/-- A process that is neither asleep nor at a point of `wait`. -/
theorem atRun (hpc : y.pc = .run) (hu : y.state = .UNUSED → y.parent = none) (hq : q ≠ i) :
    SlotOk i q y where
  dead := fun _ => hpc
  unused := hu
  waitSleep := by rw [hpc]; nofun
  waitAcquire := by rw [hpc]; nofun
  init := fun h => absurd h hq

end SlotOk

/-- What holds of all slots after a change of another slot, after which the process goes on. -/
theorem State.both_all {P : Fin N → Proc N H → Prop} (hqp : q ≠ p) (hq : P q (f (s.proc q)))
    (hp : P p { s.proc p with pc := c }) (hother : ∀ r, P r (s.proc r)) (r : Fin N) :
    P r (((s.upd q f).goto p c).proc r) := by
  apply upd_all
  · rw [upd_ne hqp.symm]
    exact hp
  · exact upd_all hq hother

/-- What a `wakeup` on `d` does to a slot. -/
def Proc.wake (d : Option (Chan N)) (x : Proc N H) : Proc N H :=
  if x.sleepsOn d then { x with state := .RUNNABLE } else x

theorem State.wake_eq_upd (d : Option (Chan N)) (q : Fin N) :
    s.wake d q = s.upd q (Proc.wake d) := by
  by_cases hs : (s.proc q).sleepsOn d = true
  · simp [wake, upd, Proc.wake, hs]
  · simp [wake, upd, Proc.wake, hs]

theorem Proc.wake_pc (d : Option (Chan N)) : (x.wake d).pc = x.pc := by
  unfold Proc.wake
  split <;> rfl

theorem SlotOk.wake {d : Option (Chan N)} (hx : SlotOk i q x) : SlotOk i q (x.wake d) := by
  unfold Proc.wake
  split
  · next hs =>
    have hs : x.state = .SLEEPING ∧ x.chan = d := of_decide_eq_true hs
    exact hx.awake rfl rfl rfl (by rw [hs.1]; rfl) nofun nofun
  · exact hx

/-- **Slots** stay as they should under a move. -/
theorem Move.slotOk (hmove : Move h p s e s' sw) (hp : (s.proc p).state = .RUNNING)
    (hfork : ∀ q, (s.proc p).pc.forks = some q → (s.proc q).state = .USED)
    (hs : ∀ q, SlotOk s.initproc q (s.proc q)) (q : Fin N) : SlotOk s.initproc q (s'.proc q) := by
  have hne := ne_of_running hp
  -- in exit the process is not init
  have hexits : (s.proc p).pc.exits = true → ∀ c : PC N, p = s.initproc → c.exits = false :=
    fun he _ hq => absurd hq ((hs p).ne_init_of_exits he)
  have hgoto : ∀ c : PC N, (s.proc p).switch = .no → (p = s.initproc → c.exits = false) →
      ∀ q, SlotOk s.initproc q ((s.goto p c).proc q) :=
    fun c hsw hinit => upd_all (.running hp hsw hinit) hs
  cases hmove with
  | yieldLock hsw _ hpc =>
    refine upd_all { hs p with waitSleep := ?_, waitAcquire := ?_ } hs q
    · intro addr ha
      dsimp only at ha
      rw [ha] at hpc
      cases hpc
    · intro addr ha
      exact ⟨nofun, nofun, ((hs p).waitAcquire addr ha).2.2⟩
  | sleepLock n hsw _ hpc =>
    refine upd_all { hs p with waitSleep := ?_, waitAcquire := ?_ } hs q
    · dsimp only
      rw [hpc]
      nofun
    · dsimp only
      rw [hpc]
      nofun
  | waitLock addr hsw _ hpc =>
    refine upd_all { hs p with waitSleep := fun _ _ => .inr rfl, waitAcquire := ?_ } hs q
    dsimp only
    rw [hpc]
    nofun
  | sleepUnlock c hw hpc =>
    refine upd_all { hs p with waitSleep := fun addr ha => absurd ha (hpc addr), waitAcquire := ?_ }
      hs q
    intro addr ha
    exact absurd hw (((hs p).waitAcquire addr ha).1 c)
  | waitUnlock c addr hw hpc =>
    have hc : c = .proc p := by
      rcases (hs p).waitSleep addr hpc with hno | hl
      · rw [hno] at hw
        cases hw
      · rw [hl] at hw
        exact (Switch.sleepLocked.inj hw).symm
    have hself : SlotOk s.initproc p
        { s.proc p with pc := .waitAcquire addr, switch := .sleepUnlocked c } := by
      refine ⟨?_, (hs p).unused, (fun _ ha => by cases ha), ?_, fun hq => ⟨((hs p).init hq).1, rfl⟩⟩
      · dsimp only
        rw [hp]
        nofun
      · intro _ _
        refine ⟨nofun, ?_, ?_⟩
        · intro d hd
          rw [← Switch.sleepUnlocked.inj hd, hc]
        · dsimp only
          rw [hp]
          nofun
    exact upd_all (s := s)
      (f := fun x => { x with pc := .waitAcquire addr, switch := .sleepUnlocked c }) hself hs q
  | yield hw =>
    have hpc := (hs p).ne_waitSleep (by rw [hw]; nofun) (by rw [hw]; nofun)
    refine upd_all ⟨nofun, nofun, fun addr ha => absurd ha (hpc addr), ?_,
      fun hq => ⟨rfl, ((hs p).init hq).2⟩⟩ hs q
    intro _ _
    exact ⟨nofun, nofun, nofun⟩
  | sleep c hw =>
    have hpc := (hs p).ne_waitSleep (by rw [hw]; nofun) (by rw [hw]; nofun)
    refine upd_all ⟨nofun, nofun, fun addr ha => absurd ha (hpc addr), ?_,
      fun hq => ⟨rfl, ((hs p).init hq).2⟩⟩ hs q
    intro addr ha
    refine ⟨nofun, nofun, fun _ => ?_⟩
    exact congrArg some (((hs p).waitAcquire addr ha).2.1 c hw)
  | resume | woken =>
    exact upd_all (.running hp rfl fun hq => ((hs p).init hq).2) hs q
  | goto c hsw _ hout _ hinit =>
    refine hgoto c hsw ?_ q
    intro hq
    cases c with
    | exitAcquire status => exact absurd hq (hinit status rfl)
    | exitReparent | exitWakeInit | exitWakeParent | exitZombie => cases hout
    | _ => rfl
  | trap hsw hpc =>
    exact upd_all (.running hp hsw fun hq => ((hs p).init hq).2) hs q
  | alloc k r hsw _ _ hu =>
    have hr : r ≠ s.initproc := (hs r).ne_init (by rw [hu]; rfl)
    exact both_all (s := s.allocpid) (hne r (by rw [hu]; nofun)) (.atRun rfl nofun hr)
      (.running hp hsw fun _ => rfl) hs q
  | unalloc k r hsw _ _ hu =>
    have hr : r ≠ s.initproc := (hs r).ne_init (by rw [hu]; rfl)
    exact both_all (s := s.allocpid) (hne r (by rw [hu]; nofun)) (.atRun rfl (fun _ => rfl) hr)
      (.running hp hsw fun _ => rfl) hs q
  | parent np hsw hpc =>
    have hu := hfork np (by rw [hpc]; rfl)
    have hlive : (s.proc np).state.live = false := by rw [hu]; rfl
    refine both_all (hne np (by rw [hu]; nofun)) (.atRun ((hs np).dead hlive) ?_
      ((hs np).ne_init hlive)) (.running hp hsw fun _ => rfl) hs q
    intro hu'
    rw [hu] at hu'
    cases hu'
  | start np hsw hpc hlock =>
    have hu := hfork np (by rw [hpc]; rfl)
    have hlive : (s.proc np).state.live = false := by rw [hu]; rfl
    exact both_all (hne np (by rw [hu]; nofun)) (.atRun ((hs np).dead hlive) nofun
      ((hs np).ne_init hlive)) (.running hp hsw fun _ => rfl) hs q
  | reparent status r hsw hpc hparent =>
    have hinit := hexits (by rw [hpc]; rfl) (.exitWakeInit status r 0)
    by_cases hrp : r = p
    · subst hrp
      rw [upd_goto]
      exact upd_all (.running hp hsw hinit) hs q
    · refine both_all hrp ⟨(hs r).dead, ?_, (hs r).waitSleep, (hs r).waitAcquire, (hs r).init⟩
        (.running hp hsw hinit) hs q
      intro hu
      rw [(hs r).unused hu] at hparent
      cases hparent
  | exitAcquire status hsw hpc | reparentNext status r hsw hpc | reparented status k hsw hpc
  | wakeInitSelf status k hsw hpc | wokenInit status k j hsw hpc | wakeParentSelf status par hsw hpc
  | wokenParent status par j hsw hpc =>
    exact hgoto _ hsw (hexits (by rw [hpc]; rfl) _) q
  | wakeInit status _ r hsw hpc hrp | wakeParent status _ r hsw hpc hrp =>
    rw [wake_eq_upd]
    refine both_all hrp (hs r).wake ?_ hs q
    exact .running hp hsw (hexits (by rw [hpc]; rfl) _)
  | zombie status hsw hpc =>
    have hinit := (hs p).ne_init_of_exits (by rw [hpc]; rfl)
    exact upd_all (s := s)
      (f := fun x => { x with lock := some h, xstate := status, state := .ZOMBIE, pc := .run })
      (.atRun rfl nofun hinit) hs q
  | waitAcquire addr hsw | scan addr r _ _ hsw | scanned addr k _ hsw | waitFail addr k _ hsw =>
    exact hgoto _ hsw (fun _ => rfl) q
  | free addr r _ hsw _ _ _ hz =>
    have hlive : (s.proc r).state.live = false := by rw [hz]; rfl
    exact both_all (hne r (by rw [hz]; nofun)) (.atRun ((hs r).dead hlive) (fun _ => rfl)
      ((hs r).ne_init hlive)) (.running hp hsw fun _ => rfl) hs q
  | kill pid r hsw _ _ _ =>
    by_cases hrp : r = p
    · subst hrp
      rw [upd_goto]
      exact upd_all (.running (by simp [hp]) hsw fun _ => rfl) hs q
    · refine both_all hrp ?_ (.running hp hsw fun _ => rfl) hs q
      split
      · next hsl => exact (hs r).awake rfl rfl rfl (by rw [hsl]; rfl) nofun nofun
      · next hsl => exact (hs r).awake rfl rfl rfl rfl hsl id

/-! ## 2. Family -/

def State.pcs (s : State N H) (q : Fin N) : PC N := (s.proc q).pc

/-- What process `p` has made sure of at a program point inside a section of
    `wait_lock`. -/
def At (s : State N H) (p : Fin N) : PC N → Prop
  | .exitReparent _ k => ∀ q, q.val < k → (s.proc q).parent ≠ some p
  | .exitWakeInit _ k _ => ∀ q, q.val ≤ k → (s.proc q).parent ≠ some p
  | .exitWakeParent _ parent j => (∀ q, (s.proc q).parent ≠ some p) ∧ parent = (s.proc p).parent ∧
      ∀ r, parent = some r → r.val < j → ¬ (s.proc r).asleep
  | .exitZombie _ => (∀ q, (s.proc q).parent ≠ some p) ∧
      ∀ r, (s.proc p).parent = some r → ¬ (s.proc r).asleep
  | .waitScan _ k _ => ∀ q, q.val < k → (s.proc q).parent = some p → (s.proc q).state ≠ .ZOMBIE
  | .waitSleep _ => ∀ q, (s.proc q).parent = some p → (s.proc q).state ≠ .ZOMBIE
  | _ => True

/-- Some `reparent` has yet to reach init with its wakeup. -/
def WakesInit (s : State N H) : Prop :=
  ∃ r status k j, s.pcs r = .exitWakeInit status k j ∧ j ≤ s.initproc.val

structure Family (s : State N H) : Prop where
  slot : ∀ q, SlotOk s.initproc q (s.proc q)
  guard : Guards PC.holdsWait s.wait_lock s.pcs
  /-- Parents are alive, at all times. -/
  parent : ∀ q r, (s.proc q).parent = some r → (s.proc r).state.live = true
  knows : ∀ p, At s p (s.pcs p)
  /-- Nobody sleeps on a ZOMBIE child without being told. -/
  asleep : ∀ p q, (s.proc p).asleep → (s.proc q).parent = some p → (s.proc q).state = .ZOMBIE →
    p = s.initproc ∧ WakesInit s

theorem family_init (hN : 0 < N) : Family (init hN : State N H) where
  slot := by
    intro q
    refine ⟨fun _ => rfl, fun _ => rfl, ?_, ?_, ?_⟩
    · intro addr ha
      cases ha
    · intro addr ha
      cases ha
    · intro hq
      simp [init, hq, ProcState.live, PC.exits]
  guard := by intro q; simp [init, pcs, PC.holdsWait]
  parent := by intro q r hr; cases hr
  knows := fun _ => trivial
  asleep := by intro p q _ hp; cases hp

/-! ## 3. Steps -/

/-- A slot in which no parent changes, nobody exits and nobody goes to sleep in
    `wait`. -/
structure CalmSlot (x y : Proc N H) : Prop where
  parent : y.parent = x.parent
  live : x.state.live = true → y.state.live = true
  zombie : y.state = .ZOMBIE → x.state = .ZOMBIE
  asleep : y.asleep → x.asleep

structure Calm (s s' : State N H) : Prop where
  initproc : s'.initproc = s.initproc
  slot : ∀ q, CalmSlot (s.proc q) (s'.proc q)

theorem not_asleep (hs : y.state ≠ .SLEEPING) (hsw : ∀ c, y.switch ≠ .sleepUnlocked c) :
    ¬ y.asleep := by
  intro ⟨_, hy⟩
  rcases hy with hy | ⟨c, hy⟩
  · exact hs hy
  · exact hsw c hy

theorem not_asleep_of_pc (hpc : ∀ addr, y.pc ≠ .waitAcquire addr) : ¬ y.asleep := by
  intro ⟨⟨addr, hy⟩, _⟩
  exact hpc addr hy

namespace CalmSlot

theorem refl (x : Proc N H) : CalmSlot x x := ⟨rfl, id, id, id⟩

/-- A process that is not asleep in `wait` afterwards. -/
theorem awake (hparent : y.parent = x.parent) (hlive : y.state.live = true) (hy : ¬ y.asleep) :
    CalmSlot x y := by
  refine ⟨hparent, fun _ => hlive, ?_, fun h => absurd h hy⟩
  intro hz
  rw [hz] at hlive
  cases hlive

theorem wake (d : Option (Chan N)) : CalmSlot x (x.wake d) := by
  unfold Proc.wake
  split
  · refine ⟨rfl, fun _ => rfl, nofun, ?_⟩
    intro ⟨hpc, hy⟩
    rcases hy with hy | hy
    · cases hy
    · exact ⟨hpc, .inr hy⟩
  · exact .refl x

end CalmSlot

/-- Only the slot `p` changes. -/
theorem Calm.upd (hp : CalmSlot (s.proc p) (f (s.proc p))) : Calm s (s.upd p f) where
  initproc := rfl
  slot := upd_all hp fun q => .refl (s.proc q)

theorem Calm.both (hqp : q ≠ p) (hq : CalmSlot (s.proc q) (f (s.proc q)))
    (hp : CalmSlot (s.proc p) { s.proc p with pc := c }) : Calm s ((s.upd q f).goto p c) where
  initproc := rfl
  slot := both_all hqp hq hp fun q => .refl (s.proc q)

/-- A process that goes on is not asleep. -/
theorem CalmSlot.goto (hrun : x.state = .RUNNING) (hsw : x.switch = .no) :
    CalmSlot x { x with pc := c } := by
  refine .awake rfl ?_ (not_asleep ?_ ?_)
  · dsimp only
    rw [hrun]
    rfl
  · dsimp only
    rw [hrun]
    nofun
  · dsimp only
    rw [hsw]
    nofun

theorem Calm.goto (hrun : (s.proc p).state = .RUNNING) (hsw : (s.proc p).switch = .no) (c : PC N) :
    Calm s (s.goto p c) := .upd (.goto hrun hsw)

/-- What has been made sure of stays so in calm steps. -/
theorem At.calm (hat : At s p c) (hcalm : Calm s s') : At s' p c := by
  have hparent : ∀ q t, (s.proc q).parent ≠ some t → (s'.proc q).parent ≠ some t := by
    intro q t hq
    rwa [(hcalm.slot q).parent]
  have hasleep : ∀ r, ¬ (s.proc r).asleep → ¬ (s'.proc r).asleep :=
    fun r hr ha => hr ((hcalm.slot r).asleep ha)
  have hzombie : ∀ q, ((s.proc q).parent = some p → (s.proc q).state ≠ .ZOMBIE) →
      (s'.proc q).parent = some p → (s'.proc q).state ≠ .ZOMBIE := by
    intro q hq hp hz
    rw [(hcalm.slot q).parent] at hp
    exact hq hp ((hcalm.slot q).zombie hz)
  cases c with
  | exitReparent status k => exact fun q hq => hparent q p (hat q hq)
  | exitWakeInit status k j => exact fun q hq => hparent q p (hat q hq)
  | exitWakeParent status parent j =>
    obtain ⟨hall, hpar, hawake⟩ := hat
    refine ⟨fun q => hparent q p (hall q), ?_, fun r hr hj => hasleep r (hawake r hr hj)⟩
    rw [hpar, (hcalm.slot p).parent]
  | exitZombie status =>
    obtain ⟨hall, hawake⟩ := hat
    refine ⟨fun q => hparent q p (hall q), ?_⟩
    intro r hr
    rw [(hcalm.slot p).parent] at hr
    exact hasleep r (hawake r hr)
  | waitScan addr k havekids => exact fun q hq => hzombie q (hat q hq)
  | waitSleep addr => exact fun q => hzombie q (hat q)
  | _ => trivial

/-- Outside of the sections nothing needs to be made sure of. -/
theorem at_of_not_holds (hc : c.holdsWait = false) : At s p c := by
  cases c with
  | exitReparent | exitWakeInit | exitWakeParent | exitZombie | waitScan | waitSleep => cases hc
  | _ => trivial

/-- How a move of `p` to point `c` treats `wait_lock`. -/
inductive LockMove (p : Fin N) (c : PC N) (s s' : State N H) : Prop where
  | keep : s'.wait_lock = s.wait_lock → c.holdsWait = (s.pcs p).holdsWait → LockMove p c s s'
  | acquire : s.wait_lock = none → s'.wait_lock = some p → c.holdsWait = true → LockMove p c s s'
  | release : (s.pcs p).holdsWait = true → s'.wait_lock = none → c.holdsWait = false →
      LockMove p c s s'

theorem LockMove.guard (hl : LockMove p c s s') (hg : Guards PC.holdsWait s.wait_lock s.pcs)
    (hpcs : s'.pcs = update s.pcs p c) : Guards PC.holdsWait s'.wait_lock s'.pcs := by
  rw [hpcs]
  cases hl with
  | keep hw hc =>
    rw [hw]
    exact hg.keep hc
  | acquire hfree hw hc =>
    rw [hw]
    exact hg.acquire hfree hc
  | release hp hw hc =>
    rw [hw]
    exact hg.release hp hc

/-- **Calm steps** keep the invariant, if the process that moves to `c` has made sure
    of what it has to, and does not forget init. -/
theorem Family.calm (hf : Family s) (hcalm : Calm s s')
    (hslot : ∀ q, SlotOk s.initproc q (s'.proc q)) (hpcs : s'.pcs = update s.pcs p c)
    (hlock : LockMove p c s s') (hat : At s' p c)
    (hwake : ∀ status k j, (s.proc p).pc = .exitWakeInit status k j → j ≤ s.initproc.val →
      (s'.proc s.initproc).asleep →
      ∃ status k j, c = .exitWakeInit status k j ∧ j ≤ s.initproc.val) : Family s' where
  slot := by rw [hcalm.initproc]; exact hslot
  guard := hlock.guard hf.guard hpcs
  parent := by
    intro q r hr
    rw [(hcalm.slot q).parent] at hr
    exact (hcalm.slot r).live (hf.parent q r hr)
  knows := by
    intro r
    rw [hpcs]
    exact update_one r hat fun r _ => (hf.knows r).calm hcalm
  asleep := by
    intro r q hr hq hz
    rw [(hcalm.slot q).parent] at hq
    obtain ⟨rfl, t, status, k, j, ht, hj⟩ :=
      hf.asleep r q ((hcalm.slot r).asleep hr) hq ((hcalm.slot q).zombie hz)
    refine ⟨hcalm.initproc.symm, ?_⟩
    unfold WakesInit
    rw [hpcs, hcalm.initproc]
    by_cases htp : t = p
    · subst htp
      obtain ⟨status', k', j', hc, hj'⟩ := hwake status k j ht hj hr
      exact ⟨t, status', k', j', by rw [update_self, hc], hj'⟩
    · exact ⟨t, status, k, j, by rw [update_of_ne htp, ht], hj⟩

section Pcs

theorem State.pcs_upd : (s.upd p f).pcs = update s.pcs p (f (s.proc p)).pc := by
  funext q
  exact update_both (motive := fun _ (x : Proc N H) c => x.pc = c) q rfl fun _ _ => rfl

theorem State.pcs_goto : (s.goto p c).pcs = update s.pcs p c := pcs_upd

/-- Another slot is changed, but not its program point. -/
theorem State.pcs_both (hq : (f (s.proc q)).pc = (s.proc q).pc) :
    ((s.upd q f).goto p c).pcs = update s.pcs p c := by
  have hpcs : (s.upd q f).pcs = s.pcs := by
    rw [pcs_upd, hq]
    exact update_eq_self q s.pcs
  rw [pcs_goto, hpcs]

end Pcs

namespace Family

/-- A move at the same program point. -/
theorem stayPut (hf : Family s) (hslot : ∀ q, SlotOk s.initproc q ((s.upd p f).proc q))
    (hp : CalmSlot (s.proc p) (f (s.proc p))) (hpc : (f (s.proc p)).pc = (s.proc p).pc) :
    Family (s.upd p f) := by
  have hpcs : (s.upd p f).pcs = update s.pcs p (s.pcs p) := by rw [pcs_upd, hpc]; rfl
  refine hf.calm (.upd hp) hslot hpcs (.keep rfl rfl) ((hf.knows p).calm (.upd hp)) ?_
  intro status k j hw hj _
  exact ⟨status, k, j, hw, hj⟩

/-- A move outside of the sections of `wait_lock`. -/
theorem outside (hf : Family s) (hcalm : Calm s s') (hslot : ∀ q, SlotOk s.initproc q (s'.proc q))
    (hpcs : s'.pcs = update s.pcs p c) (hw : s'.wait_lock = s.wait_lock)
    (hout : (s.proc p).pc.holdsWait = false) (hc : c.holdsWait = false) : Family s' := by
  refine hf.calm hcalm hslot hpcs (.keep hw (hc.trans hout.symm)) (at_of_not_holds hc) ?_
  intro status k j hpc
  rw [hpc] at hout
  cases hout

/-- A move inside a section of `wait_lock`, from a point that is not in the loop that
    wakes init up. -/
theorem inside {c₀ : PC N} (hf : Family s) (hp : (s.proc p).state = .RUNNING)
    (hsw : (s.proc p).switch = .no) (hslot : ∀ q, SlotOk s.initproc q ((s.goto p c).proc q))
    (hpc : (s.proc p).pc = c₀) (hin : c₀.holdsWait = true) (hc : c.holdsWait = true)
    (hno : ∀ status k j, c₀ ≠ .exitWakeInit status k j) (hat : At s p c₀ → At s p c) :
    Family (s.goto p c) := by
  subst hpc
  have hcalm := Calm.goto hp hsw c
  exact hf.calm hcalm hslot pcs_goto (.keep rfl (hc.trans hin.symm)) ((hat (hf.knows p)).calm hcalm)
    fun status k j hpc => absurd hpc (hno status k j)

end Family

/-- A process whose lock is free is not on the way to sleep. -/
theorem Sched.not_unlocked (hs : Sched s) (hl : (s.proc q).lock = none) (d : Chan N) :
    (s.proc q).switch ≠ .sleepUnlocked d := by
  intro hsw
  have hok := hs.switch q
  unfold Proc.SwitchOk at hok
  rw [hsw] at hok
  have hrun : (s.proc q).state = .RUNNING := by
    cases hst : (s.proc q).state with
    | RUNNING => rfl
    | UNUSED =>
      rw [hst] at hok
      rcases hok with hok | hok <;> cases hok
    | _ =>
      rw [hst] at hok
      cases hok
  obtain ⟨h, hh⟩ := hs.running q hrun
  have hfree := (hs.lock q).free hl h
  simp [Cpu.holdsLock, hh, hsw] at hfree

/-- **A wakeup is not lost**: whoever it has reached is not asleep in `wait`. -/
theorem Sched.wake_awake (hs : Sched s) (hl : (s.proc q).lock = none)
    (hslot : SlotOk i q (s.proc q)) : ¬ ((s.proc q).wake (some (.proc q))).asleep := by
  have hsw := hs.not_unlocked hl
  unfold Proc.wake
  split
  · exact not_asleep nofun hsw
  · next hno =>
    intro ⟨⟨addr, hpc⟩, hy⟩
    rcases hy with hy | ⟨d, hy⟩
    · -- asleep in wait, so on its own channel
      have hchan := (hslot.waitAcquire addr hpc).2.2 hy
      exact hno (decide_eq_true ⟨hy, hchan⟩)
    · exact hsw d hy

/-! The five moves that are not calm. -/

namespace Family

section

variable {np : Fin N} {status : Int} {addr havekids : Bool} (hf : Family s) {t : Fin N}
include hf

/-- While somebody holds `wait_lock` and is not in the loop that wakes init up, nobody
    sleeps on a ZOMBIE child. -/
theorem no_zombie (hpc : s.pcs t = c) (hin : c.holdsWait = true)
    (hno : ∀ status k j, c ≠ .exitWakeInit status k j) (hp : (s.proc p).asleep)
    (hq : (s.proc q).parent = some p) : (s.proc q).state ≠ .ZOMBIE := by
  intro hz
  obtain ⟨-, r, status, k, j, hr, -⟩ := hf.asleep p q hp hq hz
  have hrt : r = t := hf.guard.unique (by rw [hr]; rfl) (by rw [hpc]; exact hin)
  rw [hrt, hpc] at hr
  exact hno status k j hr

theorem others (hin : (s.pcs p).holdsWait = true) (r : Fin N) (hr : r ≠ p) :
    (s.pcs r).holdsWait = false := by
  by_contra hno
  exact hr (hf.guard.unique (Bool.eq_true_of_not_eq_false hno) hin)

/-- A move while the other processes are outside of the sections: what is left to
    show about parents and sleepers. -/
theorem alone (hothers : ∀ r, r ≠ p → (s.pcs r).holdsWait = false)
    (hinit : s'.initproc = s.initproc) (hslot : ∀ q, SlotOk s.initproc q (s'.proc q))
    (hpcs : s'.pcs = update s.pcs p c) (hlock : LockMove p c s s') (hat : At s' p c)
    (hparent : ∀ q r, (s'.proc q).parent = some r → (s'.proc r).state.live = true)
    (hasleep : ∀ r q, (s'.proc r).asleep → (s'.proc q).parent = some r →
      (s'.proc q).state = .ZOMBIE → r = s.initproc ∧ WakesInit s') : Family s' where
  slot := by rw [hinit]; exact hslot
  guard := hlock.guard hf.guard hpcs
  parent := hparent
  knows := by
    intro r
    rw [hpcs]
    exact update_one r hat fun r hr => at_of_not_holds (hothers r hr)
  asleep := by rw [hinit]; exact hasleep

omit hf in
/-- The parent of `q` is set, and the program point of `p`. -/
theorem setParent_fields (hs' : s' = (s.upd q fun x => { x with parent := some t }).goto p c)
    (hc : ∀ addr, c ≠ .waitAcquire addr) (r : Fin N) :
    (s'.proc r).state = (s.proc r).state ∧ ((s'.proc r).asleep → (s.proc r).asleep) ∧
      (s'.proc r).parent = if r = q then some t else (s.proc r).parent := by
  have hupd : ((s.upd q fun x => { x with parent := some t }).proc r) =
      { s.proc r with parent := if r = q then some t else (s.proc r).parent } := by
    by_cases hrq : r = q
    · subst hrq
      simp
    · simp [hrq]
  rw [hs']
  by_cases hrp : r = p
  · subst hrp
    rw [goto_self, hupd]
    exact ⟨rfl, fun ha => absurd ha (not_asleep_of_pc hc), rfl⟩
  · rw [goto_ne hrp, hupd]
    exact ⟨rfl, id, rfl⟩

variable (hslot : ∀ q, SlotOk s.initproc q (s'.proc q))
include hslot

/-- `fork` sets the parent of the child `np` that it has made. -/
theorem setParent (hp : (s.proc p).state = .RUNNING) (hu : (s.proc np).state = .USED)
    (hfree : s.wait_lock = none)
    (hs' : s' = (s.upd np fun x => { x with parent := some p }).goto p (.forkRunnable np)) :
    Family s' := by
  have hfields := setParent_fields hs' nofun
  subst hs'
  have hout : (s.pcs p).holdsWait = false := hf.guard.free hfree p
  refine hf.alone (fun r _ => hf.guard.free hfree r) rfl hslot (pcs_both rfl)
    (.keep rfl hout.symm) trivial ?_ ?_
  · intro q r hr
    rw [(hfields q).2.2] at hr
    rw [(hfields r).1]
    split at hr
    · rw [← Option.some.inj hr, hp]
      rfl
    · exact hf.parent q r hr
  · intro r q hr hq hz
    rw [(hfields q).2.2] at hq
    rw [(hfields q).1] at hz
    split at hq
    · next hqn =>
      rw [hqn, hu] at hz
      cases hz
    · -- with the lock free nobody is about to wake init up
      obtain ⟨-, t, status, k, j, ht, -⟩ := hf.asleep r q ((hfields r).2.1 hr) hq hz
      have := hf.guard.free hfree t
      rw [ht] at this
      cases this

/-- `reparent` gives the child `q` to init. -/
theorem reparent (hpc : s.pcs p = .exitReparent status q)
    (hs' : s' =
        (s.upd q fun x => { x with parent := some s.initproc }).goto p (.exitWakeInit status q 0)) :
    Family s' := by
  have hin : (s.pcs p).holdsWait = true := by rw [hpc]; rfl
  have hinit := (hf.slot p).ne_init_of_exits (congrArg PC.exits hpc)
  have hat := hf.knows p
  rw [hpc] at hat
  have hfields := setParent_fields hs' nofun
  have hpcs : s'.pcs = update s.pcs p (.exitWakeInit status q 0) := by
    rw [hs']
    exact pcs_both rfl
  refine hf.alone (hf.others hin) (by rw [hs']; rfl) hslot hpcs (.keep (by rw [hs']; rfl) hin.symm)
    ?_ ?_ ?_
  · intro r hr
    rw [(hfields r).2.2]
    split
    · intro hp'
      exact hinit (Option.some.inj hp').symm
    · next hrq =>
      have : r.val ≠ q.val := fun h => hrq (Fin.ext h)
      exact hat r (by omega)
  · intro r t ht
    rw [(hfields r).2.2] at ht
    rw [(hfields t).1]
    split at ht
    · rw [← Option.some.inj ht]
      exact ((hf.slot s.initproc).init rfl).1
    · exact hf.parent r t ht
  · intro r t hr ht hz
    refine ⟨?_, p, status, q, 0, by rw [hpcs, update_self], Nat.zero_le _⟩
    rw [(hfields t).2.2] at ht
    rw [(hfields t).1] at hz
    split at ht
    · exact (Option.some.inj ht).symm
    · exact (hf.asleep r t ((hfields r).2.1 hr) ht hz).1

/-- The last step of `exit`: the parent has been told. -/
theorem exit (hp : (s.proc p).state = .RUNNING) (hpc : s.pcs p = .exitZombie status)
    (hf' : (f (s.proc p)).pc = .run) (hz : (f (s.proc p)).parent = (s.proc p).parent)
    (hs' : s' = { s.upd p f with wait_lock := none }) : Family s' := by
  have hproc : s'.proc = (s.upd p f).proc := by rw [hs']
  have hin : (s.pcs p).holdsWait = true := by rw [hpc]; rfl
  have hat := hf.knows p
  rw [hpc] at hat
  obtain ⟨hall, hat⟩ := hat
  have hpcs : s'.pcs = update s.pcs p .run := by
    rw [← hf', ← pcs_upd, hs']
    rfl
  have hparent : ∀ q, (s'.proc q).parent = (s.proc q).parent := by
    rw [hproc]
    exact upd_all (P := fun q y => y.parent = (s.proc q).parent) hz fun _ => rfl
  refine hf.alone (hf.others hin) (by rw [hs']; rfl) hslot hpcs (.release hin (by rw [hs']) rfl)
    trivial ?_ ?_
  · intro q r hr
    rw [hparent] at hr
    have hrp : r ≠ p := by
      intro hrp
      exact hall q (hrp ▸ hr)
    rw [hproc, upd_ne hrp]
    exact hf.parent q r hr
  · intro r q hr hq hz
    rw [hparent] at hq
    have hrp : r ≠ p := by
      intro hrp
      rw [hrp, hproc, upd_self] at hr
      exact not_asleep_of_pc (by rw [hf']; nofun) hr
    rw [hproc, upd_ne hrp] at hr
    by_cases hqp : q = p
    · subst hqp
      exact absurd hr (hat r hq)
    · rw [hproc, upd_ne hqp] at hz
      exact absurd hz (hf.no_zombie hpc rfl nofun hr hq)

/-- `wait` frees the ZOMBIE child `q`. -/
theorem reap (hp : (s.proc p).state = .RUNNING) (hsw : (s.proc p).switch = .no)
    (hpc : s.pcs p = .waitScan addr q havekids) (hz : (s.proc q).state = .ZOMBIE)
    (hs' : s' = { (s.upd q Proc.freeproc).goto p .run with wait_lock := none }) : Family s' := by
  have hproc : s'.proc = ((s.upd q Proc.freeproc).goto p .run).proc := by rw [hs']
  have hqp : q ≠ p := ne_of_running hp q (by rw [hz]; nofun)
  have hin : (s.pcs p).holdsWait = true := by rw [hpc]; rfl
  have hpcs : s'.pcs = update s.pcs p .run := by
    rw [← pcs_both (s := s) (q := q) (f := Proc.freeproc) rfl, hs']
    rfl
  have hslots : ∀ r, r ≠ q → (s'.proc r).state = (s.proc r).state ∧
      (s'.proc r).parent = (s.proc r).parent ∧ ((s'.proc r).asleep → (s.proc r).asleep) := by
    rw [hproc]
    refine both_all (P := fun r y => r ≠ q → y.state = (s.proc r).state ∧
      y.parent = (s.proc r).parent ∧ (y.asleep → (s.proc r).asleep)) hqp ?_ ?_ ?_
    · exact fun h => absurd rfl h
    · exact fun _ => ⟨rfl, rfl, (CalmSlot.goto hp hsw).asleep⟩
    · exact fun _ _ => ⟨rfl, rfl, id⟩
  have hq' : (s'.proc q) = (s.proc q).freeproc := by rw [hproc, goto_ne hqp, upd_self]
  -- q is neither child nor parent any more
  have hparent : ∀ t r, (s'.proc t).parent = some r → t ≠ q ∧ r ≠ q ∧
      (s.proc t).parent = some r := by
    intro t r hr
    have htq : t ≠ q := by
      intro htq
      rw [htq, hq'] at hr
      cases hr
    rw [(hslots t htq).2.1] at hr
    refine ⟨htq, ?_, hr⟩
    intro hrq
    have hlive := hf.parent t r hr
    rw [hrq, hz] at hlive
    cases hlive
  refine hf.alone (hf.others hin) (by rw [hs']; rfl) hslot hpcs (.release hin (by rw [hs']) rfl)
    trivial ?_ ?_
  · intro t r hr
    obtain ⟨-, hrq, hr⟩ := hparent t r hr
    rw [(hslots r hrq).1]
    exact hf.parent t r hr
  · intro r t hr ht hzt
    obtain ⟨htq, hrq, ht⟩ := hparent t r ht
    rw [(hslots t htq).1] at hzt
    exact absurd hzt (hf.no_zombie hpc rfl nofun ((hslots r hrq).2.2 hr) ht)

/-- `wait` lets go of `wait_lock` and goes to sleep, with no ZOMBIE child. -/
theorem fallAsleep (hpc : s.pcs p = .waitSleep addr) (hf' : (f (s.proc p)).pc = .waitAcquire addr)
    (hkeep : (f (s.proc p)).parent = (s.proc p).parent ∧ (f (s.proc p)).state = (s.proc p).state)
    (hs' : s' = { s.upd p f with wait_lock := none }) : Family s' := by
  have hproc : s'.proc = (s.upd p f).proc := by rw [hs']
  have hin : (s.pcs p).holdsWait = true := by rw [hpc]; rfl
  have hat := hf.knows p
  rw [hpc] at hat
  have hpcs : s'.pcs = update s.pcs p (.waitAcquire addr) := by
    rw [← hf', ← pcs_upd, hs']
    rfl
  have hfields : ∀ q, (s'.proc q).parent = (s.proc q).parent ∧
      (s'.proc q).state = (s.proc q).state := by
    rw [hproc]
    exact upd_all (P := fun q y => y.parent = (s.proc q).parent ∧ y.state = (s.proc q).state) hkeep
      fun _ => ⟨rfl, rfl⟩
  refine hf.alone (hf.others hin) (by rw [hs']; rfl) hslot hpcs (.release hin (by rw [hs']) rfl)
    trivial ?_ ?_
  · intro q r hr
    rw [(hfields q).1] at hr
    rw [(hfields r).2]
    exact hf.parent q r hr
  · intro r q hr hq hz
    rw [(hfields q).1] at hq
    rw [(hfields q).2] at hz
    by_cases hrp : r = p
    · subst hrp
      exact absurd hz (hat q hq)
    · rw [hproc, upd_ne hrp] at hr
      exact absurd hz (hf.no_zombie hpc rfl nofun hr hq)

end

end Family

/-- **The moves** keep the invariant. -/
theorem Family.move (hs : Sched s) (hf : Family s) (hmove : Move h p s e s' sw)
    (hp : (s.proc p).state = .RUNNING) : Family s' := by
  have hslot := hmove.slotOk hp (hs.forks p) hf.slot
  have hne := ne_of_running hp
  have hat := hf.knows p
  have hawake : ∀ y : Proc N H, y.state = .RUNNING → (∀ d, y.switch ≠ .sleepUnlocked d) →
    ¬ y.asleep :=
    fun y hy => not_asleep (by rw [hy]; nofun)
  have hlive : (s.proc p).state.live = true := by rw [hp]; rfl
  unfold pcs at hat
  cases hmove with
  | yieldLock | sleepLock | waitLock | resume | woken =>
    exact hf.stayPut hslot (.awake rfl hlive (hawake _ hp nofun)) rfl
  | sleepUnlock d hw hpc =>
    refine hf.stayPut hslot (.awake rfl hlive (not_asleep_of_pc ?_)) rfl
    intro addr ha
    exact ((hf.slot p).waitAcquire addr ha).1 d hw
  | yield => exact hf.stayPut hslot (.awake rfl rfl (not_asleep nofun nofun)) rfl
  | sleep d hw =>
    refine hf.stayPut hslot ⟨rfl, fun _ => rfl, nofun, ?_⟩ rfl
    intro ⟨hpc, _⟩
    exact ⟨hpc, .inr ⟨d, hw⟩⟩
  | trap hsw =>
    exact hf.stayPut hslot (.awake rfl hlive (hawake _ hp (by dsimp only; rw [hsw]; nofun))) rfl
  | goto c hsw hout hc =>
    exact hf.outside (.goto hp hsw _) hslot pcs_goto rfl hout hc
  | alloc k r hsw hpc _ hu =>
    have hrun := (hf.slot r).dead (by rw [hu]; rfl)
    refine hf.outside (p := p) (c := .forkParent r) ⟨rfl, ?_⟩ hslot ?_ rfl (by rw [hpc]; rfl) rfl
    · refine both_all (s := s.allocpid) (hne r (by rw [hu]; nofun)) ?_ (.goto hp hsw)
        fun q => .refl (s.proc q)
      exact ⟨rfl, by rw [hu]; nofun, nofun, fun ha => absurd ha (not_asleep_of_pc nofun)⟩
    · exact pcs_both (s := s.allocpid) hrun.symm
  | unalloc k r hsw hpc _ hu =>
    have hrun := (hf.slot r).dead (by rw [hu]; rfl)
    refine hf.outside (p := p) (c := .run) ⟨rfl, ?_⟩ hslot ?_ rfl (by rw [hpc]; rfl) rfl
    · refine both_all (s := s.allocpid) (hne r (by rw [hu]; nofun)) ?_ (.goto hp hsw)
        fun q => .refl (s.proc q)
      exact ⟨((hf.slot r).unused hu).symm, by rw [hu]; nofun, nofun,
        fun ha => absurd ha (not_asleep_of_pc nofun)⟩
    · exact pcs_both (s := s.allocpid) hrun.symm
  | start np hsw hpc hlock =>
    have hu := hs.forks p np (by rw [hpc]; rfl)
    have hrun := (hf.slot np).dead (by rw [hu]; rfl)
    refine hf.outside (.both (hne np (by rw [hu]; nofun)) (.awake rfl rfl (not_asleep_of_pc ?_))
      (.goto hp hsw)) hslot (pcs_both rfl) rfl (by rw [hpc]; rfl) rfl
    dsimp only
    rw [hrun]
    nofun
  | kill pid r hsw hpc _ _ =>
    have hout : (s.proc p).pc.holdsWait = false := by rw [hpc]; rfl
    by_cases hrp : r = p
    · subst hrp
      rw [upd_goto] at hslot ⊢
      exact hf.outside (.upd (.awake rfl (by simp [hp, ProcState.live]) (not_asleep_of_pc nofun)))
        hslot pcs_upd rfl hout rfl
    · refine hf.outside (.both hrp ⟨rfl, ?_, ?_, ?_⟩ (.goto hp hsw)) hslot (pcs_both rfl) rfl hout
        rfl
      · intro hl
        dsimp only
        split
        · rfl
        · exact hl
      · dsimp only
        split
        · nofun
        · exact id
      · intro ⟨ha, hb⟩
        refine ⟨ha, hb.imp_left ?_⟩
        dsimp only
        split
        · nofun
        · exact id
  | exitAcquire _ hsw hpc hfree | waitAcquire _ hsw hpc hfree =>
    refine hf.calm ⟨rfl, (Calm.goto hp hsw _).slot⟩ hslot pcs_goto
      (.acquire hfree rfl rfl) (fun q hq => absurd hq (Nat.not_lt_zero _)) ?_
    rw [hpc]
    nofun
  | waitFail addr k havekids hsw hpc =>
    refine hf.calm ⟨rfl, (Calm.goto hp hsw .run).slot⟩ hslot pcs_goto
      (.release (congrArg PC.holdsWait hpc) rfl rfl) trivial ?_
    rw [hpc]
    nofun
  | reparentNext status q hsw hpc hparent =>
    refine hf.inside hp hsw hslot hpc rfl rfl nofun ?_
    intro hat r hr
    by_cases hrq : r = q
    · rw [hrq]
      exact hparent
    · exact hat r (by omega)
  | reparented status k hsw hpc hk =>
    refine hf.inside hp hsw hslot hpc rfl rfl nofun ?_
    intro hat
    exact ⟨fun q => hat q (by omega), rfl, fun _ _ hj => absurd hj (Nat.not_lt_zero _)⟩
  | wakeParentSelf status par hsw hpc =>
    refine hf.inside hp hsw hslot hpc rfl rfl nofun ?_
    intro ⟨hall, hpar, hat⟩
    refine ⟨hall, hpar, ?_⟩
    intro r hr hj
    -- nobody is its own parent here
    have hrp : r ≠ p := by
      intro hrp
      exact hall p (by rw [← hpar, hr, hrp])
    exact hat r hr (by omega)
  | wokenParent status par j hsw hpc hj =>
    refine hf.inside hp hsw hslot hpc rfl rfl nofun ?_
    intro ⟨hall, hpar, hat⟩
    refine ⟨hall, ?_⟩
    intro r hr
    exact hat r (hpar.trans hr) (by omega)
  | wakeParent status par q hsw hpc hqp hlock =>
    rw [hpc] at hat
    obtain ⟨hall, hpar, hat⟩ := hat
    rw [wake_eq_upd] at hslot ⊢
    have hcalm : Calm s ((s.upd q (Proc.wake (par.map .proc))).goto p
        (.exitWakeParent status par (q + 1))) := .both hqp (.wake _) (.goto hp hsw)
    refine hf.calm hcalm hslot (pcs_both (Proc.wake_pc _))
      (.keep rfl (congrArg PC.holdsWait hpc :).symm) ?_ ?_
    · have hold := (show At s p (.exitWakeParent status par q) from ⟨hall, hpar, hat⟩).calm hcalm
      refine ⟨hold.1, hold.2.1, ?_⟩
      intro r hr hj
      by_cases hrq : r = q
      · -- the parent, reached in this round
        subst hrq
        rw [goto_ne hqp, upd_self, hr]
        exact hs.wake_awake hlock (hf.slot r)
      · exact hold.2.2 r hr (by omega)
    · rw [hpc]
      nofun
  | wakeInit status k q hsw hpc hqp hlock =>
    rw [hpc] at hat
    rw [wake_eq_upd] at hslot ⊢
    have hcalm : Calm s ((s.upd q (Proc.wake (some (.proc s.initproc)))).goto p
        (.exitWakeInit status k (q + 1))) := .both hqp (.wake _) (.goto hp hsw)
    refine hf.calm hcalm hslot (pcs_both (Proc.wake_pc _))
      (.keep rfl (congrArg PC.holdsWait hpc :).symm) ?_ ?_
    · exact (show At s p (.exitWakeInit status k (q + 1)) from hat).calm hcalm
    · rw [hpc]
      intro status' k' j' heq hj hasleep
      obtain ⟨rfl, rfl, rfl⟩ := PC.exitWakeInit.inj heq
      refine ⟨_, _, _, rfl, ?_⟩
      -- init is asleep after the round, so the round was not init's
      have hq : q ≠ s.initproc := by
        intro hq
        rw [← hq] at hasleep
        rw [goto_ne hqp, upd_self] at hasleep
        exact hs.wake_awake hlock (hf.slot q) hasleep
      have : q.val ≠ s.initproc.val := fun h => hq (Fin.ext h)
      omega
  | wakeInitSelf status k hsw hpc =>
    have hinit := (hf.slot p).ne_init_of_exits (by rw [hpc]; rfl)
    rw [hpc] at hat
    refine hf.calm (.goto hp hsw _) hslot pcs_goto
      (.keep rfl (congrArg PC.holdsWait hpc :).symm) ?_ ?_
    · exact (show At s p (.exitWakeInit status k (p + 1)) from hat).calm (.goto hp hsw _)
    · rw [hpc]
      intro status' k' j' heq hj _
      obtain ⟨rfl, rfl, rfl⟩ := PC.exitWakeInit.inj heq
      refine ⟨_, _, _, rfl, ?_⟩
      have : p.val ≠ s.initproc.val := fun h => hinit (Fin.ext h)
      omega
  | wokenInit status k j hsw hpc hj =>
    rw [hpc] at hat
    refine hf.calm (.goto hp hsw _) hslot pcs_goto
      (.keep rfl (congrArg PC.holdsWait hpc :).symm) ?_ ?_
    · refine At.calm ?_ (.goto hp hsw _)
      intro q hq
      exact hat q (by omega)
    · rw [hpc]
      intro status' k' j' heq hj' _
      obtain ⟨rfl, rfl, rfl⟩ := PC.exitWakeInit.inj heq
      omega
  | scan addr q _ _ hsw hpc hz =>
    refine hf.inside hp hsw hslot hpc rfl rfl nofun ?_
    intro hat r hr
    by_cases hrq : r = q
    · rw [hrq]
      exact hz
    · exact hat r (by omega)
  | scanned addr k _ hsw hpc hk =>
    exact hf.inside hp hsw hslot hpc rfl rfl nofun fun hat q => hat q (by omega)
  | parent np hsw hpc hfree =>
    exact hf.setParent hslot hp (hs.forks p np (by rw [hpc]; rfl)) hfree rfl
  | reparent status q hsw hpc _ => exact hf.reparent hslot hpc rfl
  | zombie status hsw hpc => exact hf.exit (f := fun x => { x with
      lock := some h, xstate := status, state := .ZOMBIE, pc := .run }) hslot hp hpc rfl rfl rfl
  | free addr q havekids hsw hpc _ _ hz => exact hf.reap hslot hp hsw hpc hz rfl
  | waitUnlock d addr hw hpc => exact hf.fallAsleep (f := fun x => { x with
      pc := .waitAcquire addr, switch := .sleepUnlocked d }) hslot hpc rfl ⟨rfl, rfl⟩ rfl

/-- The schedulers keep the invariant. -/
theorem Family.scheduler (hf : Family s) (hr : Rescheduled h e s s') : Family s' := by
  have hinit : s'.initproc = s.initproc := by rw [hr.rest]
  have hpcs : s'.pcs = s.pcs := by
    funext q
    unfold pcs
    rw [hr.proc q]
  have hslots : ∀ q, CalmSlot (s.proc q) (s'.proc q) ∧ SlotOk s.initproc q (s'.proc q) := by
    intro q
    have hq := hr.proc q
    rcases hr.state q with hst | ⟨-, hold, hnew⟩
    · rw [hst] at hq
      rw [hq]
      exact ⟨⟨rfl, id, id, id⟩, { hf.slot q with }⟩
    · rw [hnew] at hq
      rw [hq]
      refine ⟨⟨rfl, fun _ => rfl, nofun, ?_⟩, ?_⟩
      · intro ⟨hpc, hy⟩
        exact ⟨hpc, hy.imp_left nofun⟩
      · exact (hf.slot q).awake rfl rfl rfl (by rw [hold]; rfl) nofun nofun
  have hcalm : Calm s s' := ⟨hinit, fun q => (hslots q).1⟩
  refine hf.calm (p := s.initproc) (c := s.pcs s.initproc) hcalm (fun q => (hslots q).2) ?_
    (.keep (by rw [hr.rest]) rfl) ((hf.knows _).calm hcalm) ?_
  · rw [update_eq_self]
    exact hpcs
  · intro status k j hw hj _
    exact ⟨status, k, j, hw, hj⟩

/-- **Every step** keeps the invariant. -/
theorem Family.exec (hs : Sched s) (hf : Family s) (hex : Process.exec a s = some (e, s')) :
    Family s' := by
  cases exec_turn hex with
  | run h p d e s1 s' sw hp hmove hs' =>
    have hf1 := hf.move hs hmove (hs.cpu_running hp).2
    rw [hs']
    exact { hf1 with }
  | scheduler h e s' hr => exact hf.scheduler hr
  | wakeup n q hl =>
    rw [wake_eq_upd]
    exact hf.stayPut (upd_all (hf.slot q).wake hf.slot) (.wake _) (Proc.wake_pc _)

theorem family_reachable (hr : Reachable (system N H) s) : Sched s ∧ Family s := by
  apply hr.invariant
  · intro s hs
    obtain ⟨hN, rfl⟩ := hs
    exact ⟨sched_init hN, family_init hN⟩
  · intro s e s' hs hstep
    obtain ⟨a, hex⟩ := hstep
    exact ⟨hs.1.exec hex, hs.2.exec hs.1 hex⟩

/-! ## 4. Result -/

/-- The program points of `wait`. -/
def PC.inWait : PC N → Bool
  | waitAcquire _ | waitScan _ _ _ | waitSleep _ => true
  | _ => false

/-- The label of an exit of `q` or of a `wait` that frees it. -/
def Event.about (q : Fin N) : Event N H → Bool
  | .exited p _ => p = q
  | .waited _ p _ _ => p = q
  | _ => false

/-- The last event about `q` is its exit with `status`. -/
def LastExit (q : Fin N) (status : Int) (tr : List (Event N H)) : Prop :=
  ∃ tr₀ tr₁, tr = tr₀ ++ .exited q status :: tr₁ ∧ ∀ e ∈ tr₁, e.about q = false

/-- The step of a `wait` that finds a child. -/
theorem Turn.waited {pid : BitVec 32} {status : Option Int}
    (hturn : Turn s a (.waited p q pid status) s') :
    (s.proc q).parent = some p ∧ (s.proc q).state = .ZOMBIE ∧ pid = (s.proc q).pid ∧
    ∃ addr k havekids, (s.proc p).pc = .waitScan addr k havekids ∧
      status = if addr then some (s.proc q).xstate else none := by
  cases hturn with
  | run h p' d _ s1 s' sw hp hmove hs' =>
    cases hmove with
    | free addr q havekids hsw hpc hparent _ hz =>
      exact ⟨hparent, hz, rfl, addr, q, havekids, hpc, rfl⟩
  | scheduler h _ s' hr => exact absurd hr.isData nofun

/-- The last step of an `exit`. -/
theorem Turn.exited {status : Int} (hturn : Turn s a (.exited q status) s') (hs : Sched s) :
    (s.proc q).state = .RUNNING ∧ (s'.proc q).xstate = status := by
  cases hturn with
  | run h p' d _ s1 s' sw hp hmove hs' =>
    cases hmove with
    | zombie status hsw hpc =>
      refine ⟨(hs.cpu_running hp).2, ?_⟩
      rw [hs']
      simp
  | scheduler h _ s' hr => exact absurd hr.isData nofun

/-- The exit status of a slot stays until the slot is freed. -/
theorem Turn.xstate (hturn : Turn s a e s') (hz : (s'.proc q).state ≠ .UNUSED)
    (he : ∀ status, e ≠ .exited q status) : (s'.proc q).xstate = (s.proc q).xstate := by
  rcases hturn.data with ⟨-, hd⟩ | ⟨p, hd⟩
  · exact congrArg Data.xstate (congrFun hd q)
  · cases hd with
    | keep _ hd => exact congrArg Data.xstate (congrFun hd q)
    | clear r _ hu hd => exact field_of_dataOf Data.xstate hd fun hqr => absurd (hqr ▸ hu) hz
    | exit status he' hd =>
      exact field_of_dataOf Data.xstate hd fun hqp => absurd (hqp ▸ he') (he status)
    | trap _ hd | alloc _ _ _ hd | parent _ _ _ _ hd | reparent _ _ _ _ hd | kill _ _ hd =>
      exact field_of_dataOf Data.xstate hd fun _ => rfl

/-- A slot that is a ZOMBIE after a step was one, or has exited in it. -/
theorem Changes.zombie_of {st st' : ProcState} (hc : Changes e q st st') (hst' : st' = .ZOMBIE) :
    st = .ZOMBIE ∨ ∃ status, e = .exited q status := by
  cases hc with
  | same => exact .inl hst'
  | exit status he => exact .inr ⟨status, he⟩
  | _ => cases hst'

/-- **A ZOMBIE's last event** is its exit, with the status that it keeps. -/
theorem zombie_lastExit {tr : List (Event N H)} (htr : Trace (system N H) tr s) :
    Sched s ∧ ∀ q, (s.proc q).state = .ZOMBIE → LastExit q (s.proc q).xstate tr := by
  refine htr.invariant
    (I := fun tr s => Sched s ∧ ∀ q, (s.proc q).state = .ZOMBIE →
      LastExit q (s.proc q).xstate tr) ?_ ?_
  · intro s hs
    obtain ⟨hN, rfl⟩ := hs
    refine ⟨sched_init hN, ?_⟩
    intro q hq
    simp only [init] at hq
    split at hq <;> cases hq
  · intro tr s e s' hI hstep
    obtain ⟨hs, hlast⟩ := hI
    obtain ⟨a, hex⟩ := hstep
    refine ⟨hs.exec hex, ?_⟩
    intro q hz
    have hturn := exec_turn hex
    by_cases hexit : ∃ status, e = .exited q status
    · obtain ⟨status, rfl⟩ := hexit
      rw [(hturn.exited hs).2]
      exact ⟨tr, [], rfl, by simp⟩
    · -- still a ZOMBIE: nothing has happened to it
      have hold := ((hs.changes hex q).zombie_of hz).resolve_right hexit
      obtain ⟨tr0, tr1, htr, hno⟩ := hlast q hold
      rw [hturn.xstate (by rw [hz]; decide) fun status he => hexit ⟨status, he⟩]
      refine ⟨tr0, tr1 ++ [e], by rw [htr, List.append_assoc, List.cons_append], ?_⟩
      intro e' he'
      rcases List.mem_append.mp he' with he' | he'
      · exact hno e' he'
      · rw [List.mem_singleton.mp he']
        cases e with
        | exited p status =>
          refine decide_eq_false ?_
          intro hpq
          exact hexit ⟨status, by rw [hpq]⟩
        | waited p r pid status =>
          refine decide_eq_false ?_
          intro hrq
          subst hrq
          -- a slot that is freed is no ZOMBIE any more
          rcases hturn.data with ⟨hno, -⟩ | ⟨t, hd⟩
          · cases hno
          · rw [(hd.of_waited rfl).1] at hz
            cases hz
        | _ => rfl

/-- **exit, wait, reparent.**  With `wait_lock` free the parent of a process is neither
    UNUSED nor a ZOMBIE, and nobody is SLEEPING in `wait` with a ZOMBIE child.  A ZOMBIE
    is freed by a `wait` of its parent, which returns its pid and, if asked to, stores
    its status.  Since the exit that a `wait` reports there has been no other `wait` for
    the slot: no exit is reported twice. -/
theorem exit_wait_protocol {tr : List (Event N H)} (htr : Trace (system N H) tr s) :
    (s.wait_lock = none → ∀ q r, (s.proc q).state ≠ .UNUSED → q ≠ s.initproc →
      (s.proc q).parent = some r → (s.proc r).state ≠ .UNUSED ∧ (s.proc r).state ≠ .ZOMBIE) ∧
    (∀ a e s', exec a s = some (e, s') → ∀ q, (s.proc q).state = .ZOMBIE →
      (s'.proc q).state ≠ .ZOMBIE → ∃ p addr k havekids, (s.proc q).parent = some p ∧
        (s.proc p).pc = .waitScan addr k havekids ∧
        e = .waited p q (s.proc q).pid (if addr then some (s.proc q).xstate else none)) ∧
    (∀ tr₁ tr₂ p q pid status, tr = tr₁ ++ .waited p q pid status :: tr₂ →
      ∃ st, LastExit q st tr₁ ∧ (status = none ∨ status = some st)) ∧
    (s.wait_lock = none → ∀ p q, (s.proc p).pc.inWait = true → (s.proc p).state = .SLEEPING →
      (s.proc q).parent = some p → (s.proc q).state ≠ .ZOMBIE) := by
  obtain ⟨hs, hf⟩ := family_reachable ⟨tr, htr⟩
  refine ⟨?_, ?_, ?_, ?_⟩
  · intro _ q r _ _ hr
    have hlive := hf.parent q r hr
    constructor
    · intro hu
      rw [hu] at hlive
      cases hlive
    · intro hz
      rw [hz] at hlive
      cases hlive
  · intro a e s' hex q hz hz'
    have hfree : ∃ p pid status, e = .waited p q pid status := by
      have hc := hs.changes hex q
      rw [hz] at hc
      generalize (s'.proc q).state = st' at hc hz'
      cases hc with
      | same => exact absurd rfl hz'
      | free p pid status he => exact ⟨p, pid, status, he⟩
    obtain ⟨p, pid, status, rfl⟩ := hfree
    obtain ⟨hparent, -, rfl, addr, k, havekids, hpc, rfl⟩ := (exec_turn hex).waited
    exact ⟨p, addr, k, havekids, hparent, hpc, rfl⟩
  · intro tr₁ tr₂ p q pid status htr'
    rw [htr'] at htr
    obtain ⟨s0, s1, h0, a, hex⟩ := htr.step_of_append
    obtain ⟨-, hz, -, addr, k, havekids, -, hst⟩ := (exec_turn hex).waited
    refine ⟨(s0.proc q).xstate, (zombie_lastExit h0).2 q hz, ?_⟩
    cases addr with
    | true => exact .inr hst
    | false => exact .inl hst
  · intro hfree p q hin hsl hq hz
    -- with the lock free the process is past its scan
    have hout : (s.proc p).pc.holdsWait = false := hf.guard.free hfree p
    have hasleep : (s.proc p).asleep := by
      cases hpc : (s.proc p).pc with
      | waitAcquire addr => exact ⟨⟨addr, hpc⟩, .inl hsl⟩
      | waitScan | waitSleep =>
        rw [hpc] at hout
        cases hout
      | _ =>
        rw [hpc] at hin
        cases hin
    obtain ⟨-, t, status, k, j, ht, -⟩ := hf.asleep p q hasleep hq hz
    have := hf.guard.free hfree t
    rw [ht] at this
    cases this

/-- init goes to sleep in `wait`; its child exits with status 7 and wakes it up; init
    frees the child. -/
def forkExitWait : List (Action 2 2) :=
  let parentNext := Action.run hart0 (.next true)
  let childNext := Action.run hart1 (.next true)
  twoRunning ++ [childNext, .run hart1 (.exit 7), .run hart0 (.wait true)] ++
    List.replicate 7 parentNext ++ [.scheduler hart0] ++
    List.replicate 8 childNext ++ [.scheduler hart1] ++
    List.replicate 5 (.scheduler hart0) ++ List.replicate 4 parentNext

theorem exit_wait_protocol_seven :
    ∃ tr s, Trace (system 2 2) (tr ++ [.waited initproc child 2 (some 7)]) s ∧
      LastExit child 7 tr := by
  obtain ⟨tr, s, htr, ht⟩ := exists_trace_of_replay exec forkExitWait
    (fun tr _ => tr.getLast? == some (.waited initproc child 2 (some 7)))
    (initial_init Nat.zero_lt_two) (by decide +kernel)
  obtain ⟨tr, rfl⟩ := List.getLast?_eq_some_iff.mp (eq_of_beq ht)
  obtain ⟨st, hlast, hst⟩ := (exit_wait_protocol htr).2.2.1 tr [] initproc child 2 (some 7) rfl
  rcases hst with hst | hst
  · cases hst
  · cases hst
    exact ⟨tr, s, htr, hlast⟩

end NoviceKernel.Process
