import NoviceKernel.SysSafe
import NoviceKernel.SysSound
import NoviceKernel.FsRun

/-! # Runs of the kernel: references

    Any number of processes execute file system calls; their commands interleave
    in any order.  In every state that is reached

    * the reference counts of inodes and files and the ends of pipes are what
      the processes and the files account for, and
    * a call that is in progress finds what it needs.

    None of this depends on what is on the disk. -/

namespace NoviceKernel.Sys

open FS Hoare Program Count TransitionSystem Function

/-- The process can make calls. -/
def alive (s : Kernel) (p : Pid) : Bool := (s.proc p).state = .ALIVE

/-- The kernel after `userinit`: the first process, in the root directory. -/
structure Boot (s : Kernel) : Prop where
  first : ∃ p ip, s.proc p = ⟨.ALIVE, some ip, fun _ => none⟩ ∧
    (∀ q, q ≠ p → s.proc q = ⟨.UNUSED, none, fun _ => none⟩) ∧
    (s.fs.itable ip).inum = ROOTINO ∧ (s.fs.itable ip).ref = 1 ∧ (s.fs.itable ip).valid = false ∧
    ∀ jp, jp ≠ ip → (s.fs.itable jp).ref = 0
  lock : ∀ ip, s.lock ip = none
  ftable : ∀ f, (s.ftable f).type = .FD_NONE ∧ (s.ftable f).ref = 0 ∧ (s.ftable f).off = 0
  pipe : ∀ pi, s.pipe pi = none

abbrev State := Program.Machine sig Kernel Pid Int

/-- All interleavings of calls from the states after boot with a disk that
    satisfies `image`. -/
def kernel (sb : Superblock) (image : (Nat → Block) → Prop) : System State (Event sig Pid Call) :=
  machine (fun s => Boot s ∧ image s.fs.blocks) (exec sb) alive (Call.code sb)

/-- A disk with anything on it. -/
def anyDisk (_ : Nat → Block) : Prop := True

section Boot

variable {sb : Superblock} {t : Prop} {s : Kernel} {p : Pid} {ip : Fin NINODE}

/-- The resources at boot. -/
def bootRes (p : Pid) (ip : Fin NINODE) : Pid → Res :=
  update (fun _ => .dead) p (.ofChild ⟨p, some ip, fun _ => none⟩)

theorem refsTo_boot (jp : Fin NINODE) : refsTo (bootRes p ip) jp = cwdRefs (some ip) jp := by
  have h1 :=
    refsTo_update jp (R := fun _ => .dead) (p := p) (u := .ofChild ⟨p, some ip, fun _ => none⟩)
  have h2 : refsTo (fun _ => .dead) jp = 0 := total_eq_zero fun _ => rfl
  have h3 : Res.dead.refs jp = 0 := rfl
  have h4 : (Res.ofChild ⟨p, some ip, fun _ => none⟩).refs jp = cwdRefs (some ip) jp := rfl
  unfold bootRes
  omega

theorem filesTo_boot (f : Fin NFILE) : filesTo (bootRes p ip) f = 0 := by
  refine total_eq_zero fun q => ?_
  by_cases hq : q = p
  · rw [hq, bootRes, update_self]
    exact slots_none (f := f)
  · rw [bootRes, update_of_ne hq]
    rfl

theorem bootRes_of_ne {q : Pid} (hq : q ≠ p) : bootRes p ip q = .dead := update_of_ne hq _ _

theorem bootRes_self : bootRes p ip p = .ofChild ⟨p, some ip, fun _ => none⟩ := update_self ..

/-- What no process has at boot. -/
theorem bootRes_none (q : Pid) :
    (bootRes p ip q).fresh = (fun _ => false) ∧ (bootRes p ip q).seen = (fun _ => none) ∧
    (bootRes p ip q).locks = (fun _ => none) ∧ (bootRes p ip q).ends = (fun _ => 0) ∧
    (bootRes p ip q).doomed = none ∧ (bootRes p ip q).child = none := by
  by_cases hq : q = p
  · rw [hq, bootRes_self]
    exact ⟨rfl, rfl, rfl, rfl, rfl, rfl⟩
  · rw [bootRes_of_ne hq]
    exact ⟨rfl, rfl, rfl, rfl, rfl, rfl⟩

theorem bootRes_idle (q : Pid) : (bootRes p ip q).Idle := by
  by_cases hq : q = p
  · rw [hq, bootRes_self]
    exact .inr ⟨rfl, rfl, rfl, rfl, rfl, rfl, rfl, rfl⟩
  · rw [bootRes_of_ne hq]
    exact .inl rfl

theorem Boot.procs (hp : s.proc p = ⟨.ALIVE, some ip, fun _ => none⟩)
    (hq : ∀ q, q ≠ p → s.proc q = ⟨.UNUSED, none, fun _ => none⟩) :
    Procs s.proc (bootRes p ip) where
  alive := by
    intro q ha
    by_cases hqp : q = p
    · rw [hqp, bootRes_self]
      rfl
    · rw [hq q hqp] at ha
      cases ha
  dead := by
    intro q ha
    by_cases hqp : q = p
    · rw [hqp, bootRes_self] at ha
      cases ha
    · exact bootRes_of_ne hqp
  own := by
    intro q ha
    by_cases hqp : q = p
    · rw [hqp, bootRes_self]
      exact hp
    · rw [bootRes_of_ne hqp] at ha
      cases ha
  child := by
    intro q ch hc
    rw [(bootRes_none q).2.2.2.2.2] at hc
    cases hc
  parent := by
    intro q q' ch ch' hc
    rw [(bootRes_none q).2.2.2.2.2] at hc
    cases hc
  spare := by
    rintro q ⟨ha, -⟩
    have hqp : q ≠ p := by
      rintro rfl
      rw [bootRes_self] at ha
      cases ha
    rw [hq q hqp]
    exact ⟨rfl, rfl⟩

variable (h : Boot s)
include h

/-- No file is on anything at boot. -/
theorem Boot.bare (f : Fin NFILE) : (s.ftable f).inode = none ∧ (s.ftable f).pipeEnd = none := by
  unfold File.inode File.pipeEnd
  rw [(h.ftable f).1]
  exact ⟨rfl, rfl⟩

theorem Boot.counts (href : (s.fs.itable ip).ref = 1)
    (hother : ∀ jp, jp ≠ ip → (s.fs.itable jp).ref = 0) : Counts (view sb s) (bootRes p ip) where
  iref := by
    intro jp
    have hnone : filesOn s.ftable jp = 0 := by
      refine count_eq_zero.mpr fun f hf => ?_
      rw [(h.bare f).1] at hf
      cases hf
    show (s.fs.itable jp).ref = filesOn s.ftable jp + _
    rw [hnone, refsTo_boot, cwdRefs]
    by_cases hj : jp = ip
    · rw [hj, if_pos rfl, href]
    · rw [if_neg fun hc => hj (Option.some.inj hc).symm, hother jp hj]
  fref := by
    intro f
    rw [filesTo_boot]
    exact (h.ftable f).2.1
  closed := fun f _ => (h.ftable f).1
  off := by
    intro f
    show (s.ftable f).off < 2 ^ 32
    rw [(h.ftable f).2.2]
    exact Nat.two_pow_pos 32
  fresh := by
    intro q f hf
    rw [(bootRes_none q).1] at hf
    cases hf
  seen := by
    intro q f jp hf
    rw [(bootRes_none q).2.1] at hf
    cases hf

theorem Boot.pipes : Pipes (view sb s) (bootRes p ip) where
  count := by
    intro pi w
    have h1 : filesAt s.ftable (pi, w) = 0 := by
      refine count_eq_zero.mpr fun f hf => ?_
      rw [(h.bare f).2] at hf
      cases hf
    have h2 : endsTo (bootRes p ip) (pi, w) = 0 :=
      total_eq_zero fun q => by rw [(bootRes_none q).2.2.2.1]
    show filesAt s.ftable (pi, w) + _ = openEnds (s.pipe pi) w
    rw [h1, h2, h.pipe pi]
    rfl
  doomed := by
    intro q pi hq
    rw [(bootRes_none q).2.2.2.2.1] at hq
    cases hq
  closed := by
    intro pi hc
    change s.pipe pi = _ at hc
    rw [h.pipe pi] at hc
    cases hc
  one := by
    intro q q' pi hq
    rw [(bootRes_none q).2.2.2.2.1] at hq
    cases hq

theorem Boot.locks (hvalid : (s.fs.itable ip).valid = false)
    (hother : ∀ jp, jp ≠ ip → (s.fs.itable jp).ref = 0) : Locks t (view sb s) (bootRes p ip) where
  lock := by
    intro jp q
    rw [(bootRes_none q).2.2.1]
    refine iff_of_false ?_ fun hc => hc rfl
    show s.lock jp ≠ some q
    rw [h.lock jp]
    exact fun hc => by cases hc
  backed := by
    intro q jp hc
    rw [(bootRes_none q).2.2.1] at hc
    exact absurd rfl hc
  held := by
    intro q jp x hc
    rw [(bootRes_none q).2.2.1] at hc
    cases hc
  free := by
    intro jp _ hpos hv
    change 0 < (s.fs.itable jp).ref at hpos
    change (s.fs.itable jp).valid = true at hv
    by_cases hj : jp = ip
    · rw [hj, hvalid] at hv
      cases hv
    · rw [hother jp hj] at hpos
      cases hpos

/-- **After boot the resources account for everything**; the disk has to be in
    order only to follow what is on it. -/
theorem Boot.inv (htable : t → Table sb s.fs)
    (hdirs : t →
      ∀ i nd, node sb s.fs.blocks i = some nd → nd.attr.type = T_DIR → Named sb nd.data) :
    ∃ R, Inv sb t s R ∧ ∀ p, (R p).Idle := by
  obtain ⟨p, ip, hp, hq, -, href, hvalid, hother⟩ := h.first
  refine ⟨bootRes p ip,
    ⟨htable, Boot.procs hp hq, h.counts href hother, h.pipes, ?_, h.locks hvalid hother, hdirs⟩,
    bootRes_idle⟩
  intro jp kp hj hk _
  have hone : ∀ lp, 0 < (s.fs.itable lp).ref → lp = ip := by
    intro lp hl
    by_contra hne
    rw [hother lp hne] at hl
    cases hl
  exact (hone jp hj).trans (hone kp hk).symm

end Boot

/-! ## Reachable states -/

section Run

variable {sb : Superblock} {t : Prop} {image : (Nat → Block) → Prop} {m m' : State} {s s' : Kernel}
  {p : Pid} {R : Pid → Res} {cond : State → Event sig Pid Call → Prop} {a : Abs} {c : Call}
  {pi : Nat} {proc : Pid → Proc}

/-- A process that can make calls is resting between them. -/
theorem Inv.resting (h : Inv sb t s R) (ha : alive s p = true) (hi : (R p).Idle) :
    (R p).Resting := by
  have hlive := h.holds.procs.alive p (of_decide_eq_true ha)
  rcases hi with hd | hr
  · rw [hd] at hlive
    cases hlive
  · exact hr

/-- **The resources account for everything in every reachable state**, and with
    them every call in progress is safe. -/
theorem reachable_holds (hsb : t → sb.Ok) (hroot : t → ROOTINO < sb.ninodes)
    (htable : ∀ s, t → Boot s → image s.fs.blocks → Table sb s.fs)
    (hdirs : ∀ blocks, t → image blocks →
      ∀ i nd, node sb blocks i = some nd → nd.attr.type = T_DIR → Named sb nd.data)
    (hcond : ∀ m p c, cond m (.cmd p c) → allowed sb t p c m.shared)
    (h : Reachable (restrict (kernel sb image) cond) m) :
    ∃ R, m.Inv (spec sb t) (Inv sb t) Res.Idle R := by
  refine Program.Machine.reachable_inv (sound hsb) ?_ hcond ?_ h
  · intro m R p l _ hinv ha hi
    exact call_safe (hinv.resting ha hi) hroot
  · rintro s ⟨hb, him⟩
    exact hb.inv (fun ht => htable s ht hb him) fun ht => hdirs _ ht him

/-- Without following the disk there is nothing to assume. -/
theorem reachable_accounts (h : Reachable (kernel sb anyDisk) m) :
    ∃ R, m.Inv (spec sb False) (Inv sb False) Res.Idle R := by
  have h' : Reachable (restrict (kernel sb anyDisk) fun _ _ => True) m := by
    refine h.invariant (I := Reachable (restrict (kernel sb anyDisk) fun _ _ => True)) ?_ ?_
    · exact fun m hm => .of_init hm
    · exact fun m e m' ih hstep => ih.step ⟨trivial, hstep⟩
  exact reachable_holds (fun hc => hc.elim) (fun hc => hc.elim) (fun _ hc => hc.elim)
    (fun _ hc => hc.elim) (fun _ _ _ _ hc => hc.elim) h'

/-- A command that a process is about to execute has what it needs. -/
theorem pending_pre {c : Cmd} {k : c.Ret → Code Int} (h : m.Inv (spec sb t) (Inv sb t) Res.Idle R)
    (hp : m.prog p = some (.cmd c k)) : Pre sb t c (R p) := by
  have := h.2 p
  rw [hp] at this
  exact this.2.1.2

/-- Between calls a slot without a process is empty. -/
theorem idle_spare {q : Pid} (hi : ∀ p, (R p).Idle) (hq : R q = .dead) : Spare R q := by
  refine ⟨by rw [hq]; rfl, fun q' ch hc => ?_⟩
  rcases hi q' with hd | hr
  · rw [hd] at hc
    cases hc
  · rw [hr.child] at hc
    cases hc

/-- Between calls the references to inodes that processes hold are those of their
    working directories. -/
theorem refsTo_idle (hp : Procs proc R) (hi : ∀ p, (R p).Idle) (ip : Fin NINODE) :
    refsTo R ip = count proc (·.cwd = some ip) := by
  rw [count_eq_total]
  refine total_congr fun q => ?_
  rcases hi q with hd | hr
  · rw [(hp.spare q (idle_spare hi hd)).1, hd]
    rfl
  · rw [hr.refs, hp.own q hr.alive]
    rfl

/-- The references to files are those of the descriptors. -/
theorem filesTo_idle (hp : Procs proc R) (hi : ∀ p, (R p).Idle) (f : Fin NFILE) :
    filesTo R f = total (fun x : Proc => slots x.ofile f) proc := by
  refine total_congr fun q => ?_
  rcases hi q with hd | hr
  · rw [(hp.spare q (idle_spare hi hd)).2, slots_none, hd]
    rfl
  · rw [hr.files, hp.own q hr.alive]

/-- Between calls all processes are idle. -/
theorem Idle.of_none (h : m.Inv (spec sb t) (Inv sb t) Res.Idle R) (hnone : ∀ p, m.prog p = none)
    (p : Pid) : (R p).Idle := by
  have := h.2 p
  rw [hnone p] at this
  exact this

/-! ## One call at a time -/

section Calls

variable {ex : Pid → (c : Cmd) → SysM c.Ret} {init : Kernel → Prop}

/-- The calls of a process one after the other, undisturbed; `ex` executes the
    commands. -/
def calls (ex : Pid → (c : Cmd) → SysM c.Ret) (sb : Superblock) (p : Pid) :
    List Call → Kernel → Option Kernel
  | [], s => some s
  | c :: cs, s =>
    if alive s p then
      match (c.code sb).run (ex p) s with
      | .ok _ s' => calls ex sb p cs s'
      | .error _ _ => none
    else none

/-- They are a run. -/
theorem reachable_calls {cs : List Call}
    (h : Reachable (machine init ex alive (Call.code sb)) ⟨s, fun _ => none⟩)
    (hcalls : calls ex sb p cs s = some s') :
    Reachable (machine init ex alive (Call.code sb)) ⟨s', fun _ => none⟩ := by
  induction cs generalizing s with
  | nil =>
    cases hcalls
    exact h
  | cons c cs ih =>
    unfold calls at hcalls
    split at hcalls
    · next ha =>
      split at hcalls
      · next v s1 hrun => exact ih (Program.Machine.reachable_call h ha hrun) hcalls
      · cases hcalls
    · cases hcalls

/-- A run of calls whose last state passes a test. -/
theorem reachable_test (p : Pid) (cs : List Call)
    (h : Reachable (machine init ex alive (Call.code sb)) ⟨s, fun _ => none⟩) (test : Kernel → Bool)
    (htest : ((calls ex sb p cs s).map test).getD false = true) :
    ∃ s', Reachable (machine init ex alive (Call.code sb)) ⟨s', fun _ => none⟩ ∧
      test s' = true := by
  cases hc : calls ex sb p cs s with
  | none =>
    rw [hc] at htest
    cases htest
  | some s' =>
    rw [hc] at htest
    exact ⟨s', reachable_calls h hc, htest⟩

end Calls

/-- A disk with an empty root directory. -/
def rootDisk : Nat → Block := fun b =>
  if b = 3 then Dinode.store Block.zero (ioff ROOTINO) ⟨T_DIR, 0, 0, 1, 32,
    fun k => if k.val = 0 then 5 else 0⟩
  else if b = 4 then Block.zero.store 0 1 63
  else if b = 5 then Block.zero.copy 0
    (Dirent.bytes ⟨ROOTINO, strncpy dot DIRSIZ⟩ ++ Dirent.bytes ⟨ROOTINO, strncpy dotdot DIRSIZ⟩)
  else Block.zero

/-- The first slot of the process table. -/
def first : Pid := ⟨0, by decide⟩

/-- The kernel after boot with this disk. -/
def rootKernel : Kernel where
  fs := ⟨rootDisk, update tinyFs.itable tinyIp ⟨ROOTINO, 1, false, ⟨0, 0, 0, 0, 0, fun _ => 0⟩⟩⟩
  lock := fun _ => none
  ftable := fun _ => ⟨.FD_NONE, 0, false, false, 0, tinyIp, 0, 0⟩
  pipe := fun _ => none
  proc := update (fun _ => ⟨.UNUSED, none, fun _ => none⟩) first ⟨.ALIVE, some tinyIp,
    fun _ => none⟩

theorem rootKernel_boot : Boot rootKernel where
  first := by
    refine ⟨first, tinyIp, rfl, fun q hq => ?_, rfl, rfl, rfl, fun jp hj => ?_⟩
    · unfold rootKernel
      dsimp only
      rw [update_of_ne hq]
    · unfold rootKernel
      dsimp only
      rw [update_of_ne hj]
      rfl
  lock := fun _ => rfl
  ftable := fun _ => ⟨rfl, rfl, rfl⟩
  pipe := fun _ => rfl

theorem rootKernel_reachable (image : (Nat → Block) → Prop) (ex : Pid → (c : Cmd) → SysM c.Ret)
    (h : image rootDisk) :
    Reachable (machine (fun s => Boot s ∧ image s.fs.blocks) ex alive (Call.code tiny))
      ⟨rootKernel, fun _ => none⟩ :=
  .of_init ⟨⟨rootKernel_boot, h⟩, fun _ => rfl⟩

/-! ## References to inodes -/

/-- The files on an inode are open. -/
theorem Counts.filesOn_open (hc : Counts a R) (ip : Fin NINODE) :
    filesOn a.ftable ip = count a.ftable (fun x => 0 < x.ref ∧ x.inode = some ip) := by
  refine count_congr fun f => ⟨fun hf => ⟨?_, hf⟩, And.right⟩
  refine Nat.pos_of_ne_zero fun h0 => ?_
  unfold File.inode at hf
  rw [hc.closed f h0] at hf
  cases hf

/-- `acquiresleep` of a free lock does not wait. -/
theorem iputLast_awake {ip : Fin NINODE} (hfree : (s.fs.itable ip).ref = 1 → s.lock ip = none)
    {s' : Kernel} : exec sb p (.iputLast ip) s ≠ .error .sleep s' := by
  have hwp : wp (exec sb p (.iputLast ip)) (fun _ _ => True) (fun e _ => e ≠ .sleep) s := by
    rw [exec, iputLastBy, wp_bind, wp_get]
    dsimp only
    split
    · next hlast =>
      rw [wp_bind, acquiresleep, wp_bind, wp_get, hfree hlast.1]
      exact trivial
    · rw [wp_bind, wp_onFs, FS.unref, wp_bind, wp_get]
      trivial
  exact fun hc => hwp.of_error hc rfl

/-- **References to inodes.** In every state of every interleaving of calls an
    inode has at most one entry in use, and `iput` never waits for the lock of an
    inode that it frees: nobody has it.  Between calls the reference count of an
    entry is the number of open files and working directories that point to
    it. -/
theorem inode_references (h : Reachable (kernel sb anyDisk) m) :
    (∀ ip jp, 0 < (m.shared.fs.itable ip).ref → 0 < (m.shared.fs.itable jp).ref →
      (m.shared.fs.itable ip).inum = (m.shared.fs.itable jp).inum → ip = jp) ∧
    ((∀ p, m.prog p = none) →
      ∀ ip, (m.shared.fs.itable ip).ref =
          count m.shared.ftable (fun x => 0 < x.ref ∧ x.inode = some ip) +
            count m.shared.proc (·.cwd = some ip)) ∧
    (∀ p ip k, m.prog p = some (.cmd (.iputLast ip) k) →
      ((m.shared.fs.itable ip).ref = 1 ∧ (m.shared.fs.itable ip).valid = true ∧
        (m.shared.fs.itable ip).din.nlink = 0 → m.shared.lock ip = none) ∧
      ∀ s', exec sb p (.iputLast ip) m.shared ≠ .error .sleep s') := by
  obtain ⟨R, hinv⟩ := reachable_accounts h
  have hh := hinv.1.holds
  refine ⟨hh.unique, fun hnone ip => ?_, fun p ip k hp => ?_⟩
  · have hcwd := refsTo_idle hh.procs (Idle.of_none hinv hnone) ip
    have hfiles := hh.counts.filesOn_open ip
    exact (hh.counts.iref ip).trans (by rw [hcwd, hfiles]; rfl)
  · have hfree := fun h1 => hh.last_free (pending_pre hinv hp) h1
    exact ⟨fun hlast => hfree hlast.1, fun s' => iputLast_awake hfree⟩

/-- An open of the root directory. -/
theorem inode_references_root :
    ∃ m, Reachable (kernel tiny anyDisk) m ∧ (∀ p, m.prog p = none) ∧
      (m.shared.fs.itable tinyIp).ref = 2 ∧
      (m.shared.fs.itable tinyIp).ref =
        count m.shared.ftable (fun x => 0 < x.ref ∧ x.inode = some tinyIp) +
          count m.shared.proc (·.cwd = some tinyIp) := by
  obtain ⟨s, h, htest⟩ := reachable_test first [.sys_open [] (some [SLASH]) O_RDONLY]
    (rootKernel_reachable anyDisk (exec tiny) trivial) (fun s => (s.fs.itable tinyIp).ref = 2)
    (by decide +kernel)
  exact ⟨_, h, fun _ => rfl, of_decide_eq_true htest, (inode_references h).2.1 (fun _ => rfl)
    tinyIp⟩

/-! ## References to files -/

/-- The calls that make descriptors. -/
def Call.opens : Call → Prop
  | .sys_open _ _ _ | .sys_dup _ | .sys_pipe _ _ _ => True
  | _ => False

theorem opens_safe {r : Res} (hc : c.opens) (hr : r.Resting) :
    Safe (spec sb False) (c.code sb) r fun v r' => Failed r v r' := by
  cases c with
  | sys_open past path omode => exact sys_open_safe hr fun hc => hc.elim
  | sys_dup fd => exact sys_dup_safe hr
  | sys_pipe page args copied => exact sys_pipe_safe hr
  | _ => exact hc.elim

/-- **A call that fails to make a descriptor leaves the others alone.** -/
theorem opens_failed {v : Int} (hinv : m.Inv (spec sb False) (Inv sb False) Res.Idle R)
    (hc : c.opens) (hp : m.prog p = none) (ha : alive m.shared p = true)
    (hrun : (c.code sb).run (exec sb p) m.shared = .ok v s') (hv : v < 0) :
    (s'.proc p).ofile = (m.shared.proc p).ofile := by
  have hidle := hinv.2 p
  rw [hp] at hidle
  have hr := hinv.1.resting ha hidle
  obtain ⟨R', hinv', hrest, ho⟩ := ((sound (fun hc => hc.elim)).run (fun _ _ _ hc => hc.elim) hinv.1
    (opens_safe hc hr)).of_ok hrun
  have hafter : (s'.proc p).ofile = (R' p).ofile :=
    congrArg Proc.ofile (hinv'.holds.procs.own p hrest.alive)
  have hbefore : (m.shared.proc p).ofile = (R p).ofile :=
    congrArg Proc.ofile (hinv.1.holds.procs.own p hr.alive)
  rw [hafter, hbefore, ho hv]

/-- A file on an end of a pipe: the end is open. -/
theorem Pipes.isOpen {f : Fin NFILE} {w : Bool} (hp : Pipes a R)
    (hf : (a.ftable f).pipeEnd = some (pi, w)) : ∃ e, a.pipe pi = some e ∧ e.isOpen w = true := by
  have hpos : 0 < filesAt a.ftable (pi, w) := count_pos.mpr ⟨f, hf⟩
  have hcount := hp.count pi w
  cases he : a.pipe pi with
  | none =>
    rw [he] at hcount
    change _ = 0 at hcount
    omega
  | some e =>
    refine ⟨e, rfl, ?_⟩
    by_contra hc
    rw [he, openEnds, if_neg hc] at hcount
    omega

/-- Between calls a pipe has a file. -/
theorem Pipes.file {e : PipeEnds} (hp : Pipes a R) (hi : ∀ p, (R p).Idle)
    (he : a.pipe pi = some e) : ∃ f w, (a.ftable f).pipeEnd = some (pi, w) := by
  have hends : ∀ x, endsTo R x = 0 := by
    intro x
    refine total_eq_zero fun q => ?_
    rcases hi q with hd | hr
    · rw [hd]
      rfl
    · rw [hr.ends]
  have hdoomed : ∀ q, (R q).doomed = none := by
    intro q
    rcases hi q with hd | hr
    · rw [hd]
      rfl
    · exact hr.doomed
  have hopen : ∃ w, e.isOpen w = true := by
    by_contra hc
    have hclosed : e = ⟨false, false⟩ := by
      obtain ⟨rd, wr⟩ := e
      have h0 := (Bool.not_eq_true _).mp fun h => hc ⟨false, h⟩
      have h1 := (Bool.not_eq_true _).mp fun h => hc ⟨true, h⟩
      rw [show rd = false from h0, show wr = false from h1]
    rw [hclosed] at he
    obtain ⟨q, hq⟩ := hp.closed pi he
    rw [hdoomed q] at hq
    cases hq
  obtain ⟨w, hw⟩ := hopen
  have hcount := hp.count pi w
  rw [hends, he, openEnds, if_pos hw] at hcount
  obtain ⟨f, hf⟩ := count_pos.mp (show 0 < filesAt a.ftable (pi, w) by omega)
  exact ⟨f, w, hf⟩

/-- **References to files.** Between calls the reference count of a file is the
    number of descriptors for it; a file without references is in no descriptor
    and is `FD_NONE`; and the page of a pipe is in use exactly as long as a file
    is on one of its ends.

    In every state of every interleaving an end that has a file is open, a
    process that closes an end finds it open, and a process that frees the page
    finds it in use, with both ends closed and no file on it.

    An `open`, `dup` or `pipe` that fails leaves the descriptors as they were. -/
theorem file_references (h : Reachable (kernel sb anyDisk) m) :
    ((∀ p, m.prog p = none) →
      (∀ f, (m.shared.ftable f).ref =
          total (fun x : Proc => count x.ofile (· = some f)) m.shared.proc) ∧
      (∀ f, (m.shared.ftable f).ref = 0 →
        (m.shared.ftable f).type = .FD_NONE ∧ ∀ p fd, (m.shared.proc p).ofile fd ≠ some f) ∧
      (∀ pi, m.shared.pipe pi ≠ none ↔
        ∃ f, 0 < (m.shared.ftable f).ref ∧ (m.shared.ftable f).type = .FD_PIPE ∧
          (m.shared.ftable f).pipe = pi)) ∧
    (∀ f, (m.shared.ftable f).type = .FD_PIPE →
      ∃ e, m.shared.pipe (m.shared.ftable f).pipe = some e ∧
        e.isOpen (m.shared.ftable f).writable = true) ∧
    (∀ p pi w k, m.prog p = some (.cmd (.pipeclose pi w) k) →
      ∃ e, m.shared.pipe pi = some e ∧ e.isOpen w = true) ∧
    (∀ p pi k, m.prog p = some (.cmd (.kfree pi) k) →
      m.shared.pipe pi = some ⟨false, false⟩ ∧
      ∀ f, (m.shared.ftable f).type = .FD_PIPE → (m.shared.ftable f).pipe ≠ pi) ∧
    (∀ p (c : Call) v s', c.opens → m.prog p = none → alive m.shared p = true →
      (c.code sb).run (exec sb p) m.shared = .ok v s' → v < 0 →
      (s'.proc p).ofile = (m.shared.proc p).ofile) := by
  obtain ⟨R, hinv⟩ := reachable_accounts h
  have hh := hinv.1.holds
  have hend : ∀ f, (m.shared.ftable f).type = .FD_PIPE →
      (m.shared.ftable f).pipeEnd =
      some ((m.shared.ftable f).pipe, (m.shared.ftable f).writable) := by
    intro f ht
    unfold File.pipeEnd
    rw [ht]
  refine ⟨fun hnone => ?_, fun f ht => hh.pipes.isOpen (hend f ht), fun p pi w k hp => ?_,
    fun p pi k hp => ?_, fun p c v s' hc hp ha hrun hv => opens_failed hinv hc hp ha hrun hv⟩
  · have hi := Idle.of_none hinv hnone
    have href : ∀ f, (m.shared.ftable f).ref =
        total (fun x : Proc => slots x.ofile f) m.shared.proc := by
      exact fun f => (hh.counts.fref f).trans (filesTo_idle hh.procs hi f)
    refine ⟨href, fun f h0 => ⟨hh.counts.closed f h0, fun p fd ho => ?_⟩,
      fun pi => ⟨fun hne => ?_, ?_⟩⟩
    · have hpos := slots_pos ho
      have hle := le_total (f := m.shared.proc) (g := fun x : Proc => slots x.ofile f) p
      have := href f
      omega
    · obtain ⟨e, he⟩ := Option.ne_none_iff_exists'.mp hne
      obtain ⟨f, w, hf⟩ := hh.pipes.file hi he
      change (m.shared.ftable f).pipeEnd = some (pi, w) at hf
      refine ⟨f, ?_⟩
      unfold File.pipeEnd at hf
      split at hf
      · next ht =>
        refine ⟨Nat.pos_of_ne_zero fun h0 => ?_, ht, congrArg Prod.fst (Option.some.inj hf)⟩
        have hclosed : (m.shared.ftable f).type = .FD_NONE := hh.counts.closed f h0
        rw [ht] at hclosed
        cases hclosed
      all_goals cases hf
    · rintro ⟨f, -, ht, rfl⟩ hnone
      obtain ⟨e, he, -⟩ := hh.pipes.isOpen (hend f ht)
      change m.shared.pipe _ = some e at he
      rw [hnone] at he
      cases he
  · obtain ⟨hpos, -⟩ := pending_pre hinv hp
    have hcount := hh.pipes.count pi w
    have hle := ends_le R (pi, w) p
    change _ = openEnds (m.shared.pipe pi) w at hcount
    cases he : m.shared.pipe pi with
    | none =>
      rw [he] at hcount
      change _ = 0 at hcount
      omega
    | some e =>
      refine ⟨e, rfl, ?_⟩
      by_contra hc
      rw [he, openEnds, if_neg hc] at hcount
      omega
  · have hclosed : m.shared.pipe pi = some ⟨false, false⟩ :=
      hh.pipes.doomed p pi (pending_pre hinv hp)
    refine ⟨hclosed, fun f ht he => ?_⟩
    obtain ⟨e, he', ho⟩ := hh.pipes.isOpen (hend f ht)
    change m.shared.pipe _ = some e at he'
    rw [he, hclosed] at he'
    cases he'
    cases hw : (m.shared.ftable f).writable <;> rw [hw] at ho <;> cases ho

/-- A pipe: its page is in use, and its files have one descriptor each. -/
theorem file_references_pipe :
    ∃ m, Reachable (kernel tiny anyDisk) m ∧ (∀ p, m.prog p = none) ∧ m.shared.pipe 7 ≠ none ∧
      (∃ f, 0 < (m.shared.ftable f).ref ∧ (m.shared.ftable f).type = .FD_PIPE ∧
        (m.shared.ftable f).pipe = 7) ∧
      ∀ f, (m.shared.ftable f).ref =
          total (fun x : Proc => count x.ofile (· = some f)) m.shared.proc := by
  obtain ⟨s, h, htest⟩ := reachable_test first [.sys_pipe (some 7) true true]
    (rootKernel_reachable anyDisk (exec tiny) trivial) (fun s => s.pipe 7 ≠ none)
    (by decide +kernel)
  have huse : s.pipe 7 ≠ none := of_decide_eq_true htest
  obtain ⟨hrefs, -, hpages⟩ := (file_references h).1 fun _ => rfl
  exact ⟨_, h, fun _ => rfl, huse, (hpages 7).mp huse, hrefs⟩

end Run

end NoviceKernel.Sys
