import NoviceKernel.Lib.Count
import NoviceKernel.Lib.LockPhase
import NoviceKernel.Lib.Ring
import NoviceKernel.Lib.TransitionSystem
import NoviceKernel.Param

/-! # The disk driver (`virtio_disk.c`)

    Any number of processes call `virtio_disk_rw`, `virtio_disk_intr` runs on
    any number of harts, and the device takes entries of the avail ring and
    completes what it has taken in any order.

    1. **Model**: the descriptors, the two rings with their 16-bit indices,
       `disk.info`, `disk.ops`; the driver's functions; the device.
    2. **What the functions do** to the descriptors.
    3. **Invariant**: each process in the driver owns a chain of three
       descriptors, each ring stands for a queue of requests, and what the
       device or the handler will find for a request is what its caller wrote.
    4. **The protocol**: descriptors have one owner, a call returns after its
       own request, nothing is overwritten, no panic.

    A step is what lies between two points where the device or the holder of
    `vdisk_lock` could get in between: the driver writes an entry of the avail
    ring in one step and raises `avail->idx` in the next. -/

namespace NoviceKernel.VirtioDisk

open TransitionSystem LockPhase Ring Function Count List

/-! ## 1. Model -/

/-- Number of descriptors, and of cells of each ring. -/
def NUM : Nat := 8

/-- `avail->idx`, `used->idx` and `used_idx` are 16-bit counters. -/
def IDX : Nat := 65536

def VIRTIO_BLK_T_IN : Nat := 0
def VIRTIO_BLK_T_OUT : Nat := 1

def VRING_DESC_F_NEXT : BitVec 16 := 1#16
def VRING_DESC_F_WRITE : BitVec 16 := 2#16

/-- What the address of a descriptor points to. -/
inductive Addr where
  | null
  /-- `&disk.ops[i]`. -/
  | ops (i : Nat)
  /-- `b->data`. -/
  | data (b : Nat)
  /-- `&disk.info[i].status`. -/
  | status (i : Nat)
  deriving DecidableEq

/-- `struct virtq_desc`. -/
structure Desc where
  addr : Addr
  len : Nat
  flags : BitVec 16
  next : Nat
  deriving DecidableEq

/-- An entry of `disk.info`; no buffer is the null pointer. -/
structure Info where
  b : Option Nat
  status : Nat
  deriving DecidableEq

/-- `struct virtio_blk_req`. -/
structure BlkReq where
  type : Nat
  reserved : Nat
  sector : Nat
  deriving DecidableEq

/-- The arguments of `virtio_disk_rw`: the buffer, its block and the direction. -/
structure Call where
  b : Nat
  blockno : Nat
  write : Bool
  deriving DecidableEq

/-- `uint64 sector = b->blockno * (BSIZE / 512)`, a product of 32-bit numbers. -/
def Call.sector (c : Call) : Nat := c.blockno * (BSIZE / 512) % 4294967296

/-- `*buf0`. -/
def Call.blkReq (c : Call) : BlkReq where
  type := if c.write then VIRTIO_BLK_T_OUT else VIRTIO_BLK_T_IN
  reserved := 0
  sector := c.sector

/-- A call with its three descriptors `idx[0]`, `idx[1]`, `idx[2]`. -/
structure Job where
  call : Call
  i0 : Nat
  i1 : Nat
  i2 : Nat
  deriving DecidableEq

def Job.idx (j : Job) : List Nat := [j.i0, j.i1, j.i2]

/-- An entry of a ring: the head of a chain.  The code does not see `num`, the
    number of the request among all that were made. -/
structure Entry where
  head : Nat
  num : Nat
  deriving DecidableEq

/-- A request the device has taken: what it read along the chain. -/
structure Taken where
  entry : Entry
  req : Option BlkReq
  data : Addr
  status : Addr
  deriving DecidableEq

/-- `disk`, `b->disk` of each buffer, and the device's own memory. -/
structure Disk where
  desc : Nat → Desc
  /-- `disk.free[i] != 0`. -/
  free : Nat → Bool
  info : Nat → Info
  ops : Nat → BlkReq
  /-- `avail->ring`. -/
  availRing : Nat → Entry
  /-- `avail->idx`. -/
  availIdx : Nat
  /-- `used->ring`. -/
  usedRing : Nat → Entry
  /-- `used->idx`. -/
  usedIdx : Nat
  used_idx : Nat
  /-- `b->disk == 1`. -/
  bdisk : Nat → Bool
  /-- The device: the next entry of the avail ring to take. -/
  lastAvail : Nat
  /-- The device: taken and not completed. -/
  outstanding : List Taken
  /-- How many requests were made. -/
  made : Nat

/-- Where a caller of `virtio_disk_rw` is. -/
inductive PC where
  | out
  /-- About to `acquire(&disk.vdisk_lock)`. -/
  | acquire (c : Call)
  /-- At `alloc3_desc`. -/
  | alloc (c : Call)
  /-- In `sleep(&disk.free[0], ..)`. -/
  | sleepFree (c : Call)
  | wokenFree (c : Call)
  /-- The descriptors and the ring entry are written; about to raise `avail->idx`. -/
  | publish (j : Job)
  /-- At `while (b->disk == 1)`. -/
  | wait (j : Job) (num : Nat)
  /-- In `sleep(b, ..)`. -/
  | sleepBuf (j : Job) (num : Nat)
  | wokenBuf (j : Job) (num : Nat)
  deriving DecidableEq

/-- The driver's memory, the lock, the callers, and the handlers that are in
    the loop of `virtio_disk_intr`. -/
structure State (N H : Nat) where
  disk : Disk
  vdisk_lock : Option (Fin N ⊕ Fin H)
  proc : Fin N → PC
  intr : Fin H → Bool

/-- What a step is seen to do. -/
inductive Event (N : Nat) where
  | tau
  /-- `p` has raised `avail->idx` for its request. -/
  | submitted (p : Fin N) (num : Nat)
  | completed (t : Taken)
  /-- `virtio_disk_rw` returns. -/
  | returned (p : Fin N) (c : Call) (num : Nat)
  | panic (msg : String)
  deriving DecidableEq

inductive Action (N H : Nat) where
  | virtio_disk_rw (p : Fin N) (c : Call)
  /-- The next step of `p`. -/
  | run (p : Fin N)
  /-- `kill` wakes a sleeper whatever it sleeps on. -/
  | kill (p : Fin N)
  /-- The next step of `virtio_disk_intr` on hart `h`. -/
  | virtio_disk_intr (h : Fin H)
  /-- The device takes an entry of the avail ring. -/
  | take
  /-- The device completes the `n`th outstanding request. -/
  | complete (n : Nat)

variable {N H : Nat} {c : PC} {d : Disk} {j : Job}

/-- The call a process is in. -/
def PC.call : PC → Option Call
  | .out => none
  | .acquire c | .alloc c | .sleepFree c | .wokenFree c => some c
  | .publish j | .wait j _ | .sleepBuf j _ | .wokenBuf j _ => some j.call

/-- Whether a process is inside `vdisk_lock`. -/
def PC.holds : PC → Bool
  | .alloc _ | .publish _ | .wait _ _ => true
  | _ => false

/-- `wakeup(&disk.free[0])`. -/
def PC.wakeFree : PC → PC
  | .sleepFree c => .wokenFree c
  | c => c

/-- `wakeup(b)`. -/
def PC.wakeBuf (b : Nat) : PC → PC
  | .sleepBuf j num => if j.call.b = b then .wokenBuf j num else .sleepBuf j num
  | c => c

namespace State

variable (s : State N H)

/-- Move process `p` to program point `c`. -/
def goto (p : Fin N) (c : PC) : State N H :=
  { s with proc := update s.proc p c }

/-- `acquire(&disk.vdisk_lock)`: waits while the lock is held. -/
def acquire (p : Fin N) (c : PC) : Option (Event N × State N H) :=
  if s.vdisk_lock = none then some (.tau, { s.goto p c with vdisk_lock := some (.inl p) }) else none

/-- Release the lock and go to `c`. -/
def release (p : Fin N) (c : PC) : State N H :=
  { s.goto p c with vdisk_lock := none }

def setFree (free : Nat → Bool) : State N H :=
  { s with disk := { s.disk with free := free } }

/-- Find a free descriptor and mark it. -/
def alloc_desc : Option (Nat × State N H) :=
  ((List.range NUM).find? s.disk.free).map fun i =>
    (i, s.setFree (update s.disk.free i false))

def free_desc (i : Nat) (s : State N H) : Except String (State N H) :=
  if i ≥ NUM then .error "free_desc 1"
  else if s.disk.free i then .error "free_desc 2"
  else
    .ok
      { s with
        disk := { s.disk with
          desc := update s.disk.desc i ⟨.null, 0, 0#16, 0⟩
          free := update s.disk.free i true }
        proc := fun p => (s.proc p).wakeFree }

/-- Free the chain at `i`.  A second visit of a descriptor is a panic of
    `free_desc`, so that `NUM + 1` rounds are as many as there can be. -/
def free_chain : Nat → Nat → State N H → Except String (State N H)
  | 0, _, _ => .error "free_chain: does not end"
  | fuel + 1, i, s =>
    let flag := (s.disk.desc i).flags
    let nxt := (s.disk.desc i).next
    match free_desc i s with
    | .error msg => .error msg
    | .ok s' => if flag &&& VRING_DESC_F_NEXT ≠ 0#16 then free_chain fuel nxt s' else .ok s'

/-- `free_desc` of each descriptor of a list. -/
def free_descs : List Nat → State N H → Except String (State N H)
  | [], s => .ok s
  | j :: js, s =>
    match free_desc j s with
    | .error msg => .error msg
    | .ok s' => free_descs js s'

/-- The loop of `alloc3_desc` from round `i` on, with `k` rounds to go; none if
    it has run out of descriptors and given back what it had. -/
def alloc3_loop : Nat → Nat → (Nat → Nat) → State N H →
    Except String (Option (Nat → Nat) × State N H)
  | 0, _, idx, s => .ok (some idx, s)
  | k + 1, i, idx, s =>
    match alloc_desc s with
    | some (d, s') => alloc3_loop k (i + 1) (update idx i d) s'
    | none =>
      match free_descs ((List.range i).map idx) s with
      | .error msg => .error msg
      | .ok s' => .ok (none, s')

def alloc3_desc : Except String (Option (Nat → Nat) × State N H) :=
  alloc3_loop 3 0 (fun _ => 0) s

end State

/-- `virtio_disk_rw` from the end of its `alloc3_desc` loop up to
    `avail->ring[avail->idx % NUM] = idx[0]`. -/
def Disk.format (d : Disk) (j : Job) : Disk :=
  { d with
    ops := update d.ops j.i0 j.call.blkReq
    desc := update (update (update d.desc
      j.i0 ⟨.ops j.i0, 16, VRING_DESC_F_NEXT, j.i1⟩)
      j.i1 ⟨.data j.call.b, BSIZE,
        (if j.call.write then 0#16 else VRING_DESC_F_WRITE) ||| VRING_DESC_F_NEXT, j.i2⟩)
      j.i2 ⟨.status j.i0, 1, VRING_DESC_F_WRITE, 0⟩
    info := update d.info j.i0 ⟨some j.call.b, 0xff⟩
    bdisk := update d.bdisk j.call.b true
    availRing := update d.availRing (d.availIdx % NUM) ⟨j.i0, d.made⟩ }

/-- `avail->idx += 1`. -/
def Disk.publish (d : Disk) : Disk :=
  { d with availIdx := (d.availIdx + 1) % IDX, made := d.made + 1 }

/-- The device takes the next entry of the avail ring and reads its chain. -/
def Disk.take (d : Disk) : Option Disk :=
  if d.lastAvail = d.availIdx then none
  else
    let entry := d.availRing (d.lastAvail % NUM)
    let d0 := d.desc entry.head
    let d1 := d.desc d0.next
    let d2 := d.desc d1.next
    let req := match d0.addr with
      | .ops i => some (d.ops i)
      | _ => none
    some { d with
      lastAvail := (d.lastAvail + 1) % IDX
      outstanding := d.outstanding ++ [⟨entry, req, d1.addr, d2.addr⟩] }

/-- The device writes status 0 where the chain says, and adds the head to the
    used ring. -/
def Disk.complete (d : Disk) (n : Nat) : Option (Taken × Disk) :=
  match d.outstanding[n]? with
  | none => none
  | some t =>
    let info := match t.status with
      | .status i => update d.info i ⟨(d.info i).b, 0⟩
      | _ => d.info
    some (t, { d with
      info := info
      usedRing := update d.usedRing (d.usedIdx % NUM) t.entry
      usedIdx := (d.usedIdx + 1) % IDX
      outstanding := d.outstanding.eraseIdx n })

/-- The next step of a process in `virtio_disk_rw`. -/
def procStep (s : State N H) (p : Fin N) : Option (Event N × State N H) :=
  match s.proc p with
  | .out | .sleepFree _ | .sleepBuf _ _ => none
  | .acquire c | .wokenFree c => s.acquire p (.alloc c)
  | .alloc c =>
    match s.alloc3_desc with
    | .error msg => some (.panic msg, s)
    | .ok (none, s') => some (.tau, s'.release p (.sleepFree c))
    | .ok (some idx, s') =>
      let j : Job := ⟨c, idx 0, idx 1, idx 2⟩
      some (.tau, { s'.goto p (.publish j) with disk := s'.disk.format j })
  | .publish j =>
    some (.submitted p s.disk.made, { s.goto p (.wait j s.disk.made) with disk := s.disk.publish })
  | .wait j num =>
    if s.disk.bdisk j.call.b then some (.tau, s.release p (.sleepBuf j num))
    else
      let d := { s.disk with
        info := update s.disk.info j.i0 ⟨none, (s.disk.info j.i0).status⟩ }
      match State.free_chain (NUM + 1) j.i0 { s with disk := d } with
      | .error msg => some (.panic msg, s)
      | .ok s' => some (.returned p j.call num, s'.release p .out)
  | .wokenBuf j num => s.acquire p (.wait j num)

/-- One round of the loop of `virtio_disk_intr`, or its end. -/
def intrStep (s : State N H) (h : Fin H) : Option (Event N × State N H) :=
  if s.intr h then
    if s.disk.used_idx = s.disk.usedIdx then
      some (.tau, { s with intr := update s.intr h false, vdisk_lock := none })
    else
      let id := (s.disk.usedRing (s.disk.used_idx % NUM)).head
      if (s.disk.info id).status ≠ 0 then some (.panic "virtio_disk_intr status", s)
      else
        match (s.disk.info id).b with
        -- a store through the null pointer traps
        | none => some (.panic "kerneltrap", s)
        | some b =>
          some (.tau,
            { s with
              disk := { s.disk with
                bdisk := update s.disk.bdisk b false
                used_idx := (s.disk.used_idx + 1) % IDX }
              proc := fun p => (s.proc p).wakeBuf b })
  else if s.vdisk_lock = none then
    some (.tau, { s with intr := update s.intr h true, vdisk_lock := some (.inr h) })
  else none

def PC.kill : PC → PC
  | .sleepFree c => .wokenFree c
  | .sleepBuf j num => .wokenBuf j num
  | c => c

def exec (a : Action N H) (s : State N H) : Option (Event N × State N H) :=
  match a with
  | .virtio_disk_rw p c =>
    -- the caller holds the lock of its buffer: no other call is about it
    if s.proc p = .out ∧ ∀ q, ∀ e ∈ (s.proc q).call, e.b ≠ c.b then
      some (.tau, s.goto p (.acquire c))
    else none
  | .run p => procStep s p
  | .kill p => some (.tau, s.goto p (s.proc p).kill)
  | .virtio_disk_intr h => intrStep s h
  | .take => s.disk.take.map fun d => (.tau, { s with disk := d })
  | .complete n => (s.disk.complete n).map fun r => (.completed r.1, { s with disk := r.2 })

/-- After `virtio_disk_init`: every descriptor is free, the rings are zeroed. -/
def init (N H : Nat) : State N H where
  disk := {
    desc := fun _ => ⟨.null, 0, 0#16, 0⟩
    free := fun _ => true
    info := fun _ => ⟨none, 0⟩
    ops := fun _ => ⟨0, 0, 0⟩
    availRing := fun _ => ⟨0, 0⟩
    availIdx := 0
    usedRing := fun _ => ⟨0, 0⟩
    usedIdx := 0
    used_idx := 0
    bdisk := fun _ => false
    lastAvail := 0
    outstanding := []
    made := 0 }
  vdisk_lock := none
  proc := fun _ => .out
  intr := fun _ => false

def Initial (s : State N H) : Prop := s = init N H

theorem initial_init : Initial (init N H) := rfl

def system (N H : Nat) : System (State N H) (Event N) := ofExec Initial exec

/-- The descriptors a process has taken. -/
def PC.chain : PC → List Nat
  | .publish j | .wait j _ | .sleepBuf j _ | .wokenBuf j _ => j.idx
  | _ => []

/-! ## 2. What the functions do

    A caller seen from outside is waiting for descriptors, preparing its
    request, or waiting for the device. -/

inductive View where
  | out
  | waiting (c : Call)
  | building (j : Job)
  | flying (j : Job) (num : Nat)

def PC.view : PC → View
  | .out => .out
  | .acquire c | .alloc c | .sleepFree c | .wokenFree c => .waiting c
  | .publish j => .building j
  | .wait j num | .sleepBuf j num | .wokenBuf j num => .flying j num

def View.call : View → Option Call
  | .out => none
  | .waiting c => some c
  | .building j | .flying j _ => some j.call

def View.job : View → Option Job
  | .building j | .flying j _ => some j
  | _ => none

def State.views (s : State N H) (p : Fin N) : View := (s.proc p).view

/-- Who is inside `vdisk_lock`. -/
def State.inside (s : State N H) : Fin N ⊕ Fin H → Bool :=
  Sum.elim (fun p => (s.proc p).holds) s.intr

open PC

theorem PC.view_call (c : PC) : c.view.call = c.call := by cases c <;> rfl

theorem PC.chain_eq (c : PC) : c.chain = (c.view.job.map Job.idx).getD [] := by cases c <;> rfl

@[simp] theorem PC.wakeFree_view (c : PC) : c.wakeFree.view = c.view := by cases c <;> rfl

@[simp] theorem PC.wakeFree_holds (c : PC) : c.wakeFree.holds = c.holds := by cases c <;> rfl

@[simp] theorem PC.kill_view (c : PC) : c.kill.view = c.view := by cases c <;> rfl

@[simp] theorem PC.kill_holds (c : PC) : c.kill.holds = c.holds := by cases c <;> rfl

@[simp] theorem PC.wakeBuf_view (b : Nat) (c : PC) : (c.wakeBuf b).view = c.view := by
  cases c with
  | sleepBuf j num => simp only [wakeBuf]; split <;> rfl
  | _ => rfl

@[simp] theorem PC.wakeBuf_holds (b : Nat) (c : PC) : (c.wakeBuf b).holds = c.holds := by
  cases c with
  | sleepBuf j num => simp only [wakeBuf]; split <;> rfl
  | _ => rfl

namespace State

variable {s s' s₀ : State N H} {p : Fin N} {js : List Nat} {i : Nat}

theorem views_goto (s : State N H) (p : Fin N) (c : PC) :
    (s.goto p c).views = update s.views p c.view := by
  funext q
  by_cases hq : q = p
  · subst hq; simp [views, goto]
  · simp [views, goto, hq]

/-- A move that is not seen. -/
theorem views_goto_same (hv : c.view = (s.proc p).view) : (s.goto p c).views = s.views := by
  rw [views_goto, hv]
  exact update_eq_self ..

theorem inside_goto (s : State N H) (p : Fin N) (c : PC) :
    (s.goto p c).inside = update s.inside (.inl p) c.holds := by
  funext o
  cases o with
  | inl q =>
    simp only [inside, goto, update_apply, Sum.elim_inl, Sum.inl.injEq]
    split <;> rfl
  | inr h => simp [inside, goto]

/-- The descriptors `js` are not free any more; nothing else has changed. -/
def Grabbed (s₀ : State N H) (js : List Nat) (s : State N H) : Prop :=
  js.Nodup ∧ (∀ j ∈ js, j < NUM ∧ s₀.disk.free j = true) ∧
    s = s₀.setFree fun i => if i ∈ js then false else s₀.disk.free i

/-- Only descriptors that are free, and sleepers on `disk.free`, have changed. -/
def Rolled (s₀ s : State N H) : Prop :=
  s = { s₀ with disk := { s₀.disk with desc := s.disk.desc }, proc := s.proc } ∧
  (∀ i, s₀.disk.free i = false → s.disk.desc i = s₀.disk.desc i) ∧
  s.views = s₀.views ∧ s.inside = s₀.inside

/-- The state after the descriptors `js` were freed. -/
def freed (s : State N H) (js : List Nat) : State N H :=
  { s with
    disk := { s.disk with
      desc := fun i => if i ∈ js then ⟨.null, 0, 0#16, 0⟩ else s.disk.desc i
      free := fun i => if i ∈ js then true else s.disk.free i }
    proc := fun p => if js = [] then s.proc p else (s.proc p).wakeFree }

theorem freed_views (s : State N H) (js : List Nat) : (s.freed js).views = s.views := by
  funext p
  simp only [views, freed]
  split
  · rfl
  · simp

theorem freed_inside (s : State N H) (js : List Nat) : (s.freed js).inside = s.inside := by
  funext o
  cases o with
  | inl p =>
    simp only [inside, freed, Sum.elim_inl]
    split
    · rfl
    · simp
  | inr h => rfl

theorem PC.wakeFree_idem (c : PC) : c.wakeFree.wakeFree = c.wakeFree := by cases c <;> rfl

theorem freed_cons (s : State N H) (j : Nat) (js : List Nat) :
    (s.freed [j]).freed js = s.freed (j :: js) := by
  simp only [freed, mem_cons, not_mem_nil, reduceCtorEq, if_false, or_comm (a := _ = j), ite_or]
  congr 1
  funext p
  split
  · rfl
  · exact PC.wakeFree_idem _

theorem free_desc_ok (hi : i < NUM) (hf : s.disk.free i = false) :
    free_desc i s = .ok (s.freed [i]) := by
  unfold free_desc freed
  rw [if_neg (Nat.not_le.mpr hi), hf]
  simp only [Bool.false_eq_true, if_false, mem_singleton, reduceCtorEq]
  congr
  · funext k; rw [update_apply]
  · funext k; rw [update_apply]

theorem free_descs_ok (hnd : js.Nodup) (hlt : ∀ j ∈ js, j < NUM ∧ s.disk.free j = false) :
    free_descs js s = .ok (s.freed js) := by
  induction js generalizing s with
  | nil => simp [free_descs, freed]
  | cons j js ih =>
    obtain ⟨hj, hjf⟩ := hlt j mem_cons_self
    rw [nodup_cons] at hnd
    unfold free_descs
    rw [free_desc_ok hj hjf]
    show free_descs js (s.freed [j]) = _
    rw [ih hnd.2, freed_cons]
    intro k hk
    obtain ⟨hkn, hkf⟩ := hlt k (mem_cons_of_mem j hk)
    have hne : k ≠ j := fun h => hnd.1 (h ▸ hk)
    exact ⟨hkn, by simp [freed, hne, hkf]⟩

theorem alloc_desc_some {d : Nat} (h : s.alloc_desc = some (d, s')) :
    d < NUM ∧ s.disk.free d = true ∧ s' = s.setFree (update s.disk.free d false) := by
  unfold alloc_desc at h
  obtain ⟨k, hk, he⟩ := Option.map_eq_some_iff.mp h
  injection he with hd hs
  subst hd hs
  exact ⟨mem_range.mp (mem_of_find?_eq_some hk), by simpa using find?_some hk, rfl⟩

theorem Grabbed.alloc_desc {d : Nat} (hg : Grabbed s₀ js s) (h : s.alloc_desc = some (d, s')) :
    Grabbed s₀ (js ++ [d]) s' := by
  obtain ⟨hnd, hlt, rfl⟩ := hg
  obtain ⟨hd, hf, rfl⟩ := alloc_desc_some h
  -- what is free now was free before and is not in the list
  have hdjs : d ∉ js := by
    intro hmem
    simp [setFree, hmem] at hf
  have hd0 : s₀.disk.free d = true := by simpa [setFree, hdjs] using hf
  refine ⟨?_, ?_, ?_⟩
  · rw [nodup_append]
    refine ⟨hnd, nodup_singleton d, ?_⟩
    intro a ha b hb hab
    rw [mem_singleton] at hb
    exact hdjs (hb ▸ hab ▸ ha)
  · intro j hj
    rcases mem_append.mp hj with hj | hj
    · exact hlt j hj
    · rw [mem_singleton.mp hj]; exact ⟨hd, hd0⟩
  · have hfree : update (fun i => if i ∈ js then false else s₀.disk.free i) d false =
        fun i => if i ∈ js ++ [d] then false else s₀.disk.free i := by
      funext i
      by_cases hi : i = d
      · subst hi; simp
      · simp [hi]
    rw [← hfree]
    rfl

/-- Giving the descriptors back restores `disk.free`. -/
theorem Grabbed.free_descs (hg : Grabbed s₀ js s) :
    ∃ s', free_descs js s = .ok s' ∧ Rolled s₀ s' := by
  obtain ⟨hnd, hlt, rfl⟩ := hg
  refine ⟨_, free_descs_ok hnd ?_, ?_, ?_, ?_, ?_⟩
  · intro j hj
    exact ⟨(hlt j hj).1, by simp [setFree, hj]⟩
  · have hfree : (fun i => if i ∈ js then true else if i ∈ js then false else s₀.disk.free i) =
        s₀.disk.free := by
      funext i
      by_cases hi : i ∈ js
      · simp [hi, (hlt i hi).2]
      · simp [hi]
    unfold freed setFree
    simp only [hfree]
  · intro i hf
    have hi : i ∉ js := fun h => by simp [(hlt i h).2] at hf
    simp [freed, setFree, hi]
  · rw [freed_views]; rfl
  · rw [freed_inside]; rfl

/-- `k` rounds from `i` on: all `i + k` descriptors, or none and nothing has
    changed that is in use. -/
theorem alloc3_loop_cases (k : Nat) {idx : Nat → Nat} (hg : Grabbed s₀ ((range i).map idx) s) :
    (∃ idx' s', alloc3_loop k i idx s = .ok (some idx', s') ∧
      Grabbed s₀ ((range (i + k)).map idx') s') ∨
    ∃ s', alloc3_loop k i idx s = .ok (none, s') ∧ Rolled s₀ s' := by
  induction k generalizing i idx s with
  | zero => exact .inl ⟨idx, s, rfl, hg⟩
  | succ k ih =>
    cases ha : s.alloc_desc with
    | none =>
      obtain ⟨s', hs', hr⟩ := hg.free_descs
      exact .inr ⟨s', by simp only [alloc3_loop, ha, hs'], hr⟩
    | some r =>
      obtain ⟨d, s1⟩ := r
      have hidx : (range (i + 1)).map (update idx i d) = (range i).map idx ++ [d] := by
        rw [range_succ, map_append, map_singleton, update_self]
        congr 1
        apply map_congr_left
        intro j hj
        rw [update_of_ne (Nat.ne_of_lt (mem_range.mp hj))]
      have hg' : Grabbed s₀ ((range (i + 1)).map (update idx i d)) s1 := by
        rw [hidx]; exact hg.alloc_desc ha
      have := ih hg'
      simp only [alloc3_loop, ha]
      rwa [Nat.add_assoc, Nat.add_comm 1 k] at this

theorem alloc3_desc_cases (s : State N H) :
    (∃ idx s', s.alloc3_desc = .ok (some idx, s') ∧ Grabbed s [idx 0, idx 1, idx 2] s') ∨
    ∃ s', s.alloc3_desc = .ok (none, s') ∧ Rolled s s' :=
  alloc3_loop_cases 3 ⟨nodup_nil, by simp, by simp [setFree]⟩

/-- A chain of three descriptors is freed as a whole. -/
theorem free_chain_ok (hnd : j.idx.Nodup) (hlt : ∀ i ∈ j.idx, i < NUM ∧ s.disk.free i = false)
    (h0 : (s.disk.desc j.i0).flags &&& VRING_DESC_F_NEXT ≠ 0#16)
    (hn0 : (s.disk.desc j.i0).next = j.i1)
    (h1 : (s.disk.desc j.i1).flags &&& VRING_DESC_F_NEXT ≠ 0#16)
    (hn1 : (s.disk.desc j.i1).next = j.i2)
    (h2 : (s.disk.desc j.i2).flags &&& VRING_DESC_F_NEXT = 0#16) (fuel : Nat) :
    free_chain (fuel + 3) j.i0 s = .ok (s.freed j.idx) := by
  simp only [Job.idx, nodup_cons, mem_cons, not_mem_nil, or_false, not_or] at hnd
  obtain ⟨⟨h01, h02⟩, h12, -, -⟩ := hnd
  obtain ⟨l0, f0⟩ := hlt j.i0 (by simp [Job.idx])
  obtain ⟨l1, f1⟩ := hlt j.i1 (by simp [Job.idx])
  obtain ⟨l2, f2⟩ := hlt j.i2 (by simp [Job.idx])
  have f1' : (s.freed [j.i0]).disk.free j.i1 = false := by simp [freed, Ne.symm h01, f1]
  have f2' : ((s.freed [j.i0]).freed [j.i1]).disk.free j.i2 = false := by
    simp [freed, Ne.symm h02, Ne.symm h12, f2]
  have d1 : (s.freed [j.i0]).disk.desc j.i1 = s.disk.desc j.i1 := by simp [freed, Ne.symm h01]
  have d2 : ((s.freed [j.i0]).freed [j.i1]).disk.desc j.i2 = s.disk.desc j.i2 := by
    simp [freed, Ne.symm h02, Ne.symm h12]
  -- one round for each descriptor
  simp only [free_chain, free_desc_ok l0 f0, hn0]
  rw [if_pos h0]
  simp only [free_desc_ok l1 f1', d1, hn1]
  rw [if_pos h1]
  simp only [free_desc_ok l2 f2', d2]
  rw [if_neg (not_not.mpr h2), freed_cons, freed_cons]
  rfl

end State

/-! ## 3. Invariant -/

/-- The memory says what `virtio_disk_rw` has written for the job. -/
structure Formatted (d : Disk) (j : Job) : Prop where
  desc0 : d.desc j.i0 = ⟨.ops j.i0, 16, VRING_DESC_F_NEXT, j.i1⟩
  desc1 : d.desc j.i1 = ⟨.data j.call.b, BSIZE,
    (if j.call.write then 0#16 else VRING_DESC_F_WRITE) ||| VRING_DESC_F_NEXT, j.i2⟩
  desc2 : d.desc j.i2 = ⟨.status j.i0, 1, VRING_DESC_F_WRITE, 0⟩
  ops : d.ops j.i0 = j.call.blkReq
  info : (d.info j.i0).b = some j.call.b

/-- What the device reads for the job. -/
def Job.taken (j : Job) (num : Nat) : Taken where
  entry := ⟨j.i0, num⟩
  req := some j.call.blkReq
  data := .data j.call.b
  status := .status j.i0

/-- The number of the request that a step submits. -/
def Event.submission : Event N → Option Nat
  | .submitted _ num => some num
  | _ => none

/-- The requests the device or the handler has yet to see. -/
def Disk.pending (d : Disk) (availQ usedQ : List Entry) : List Entry :=
  availQ ++ d.outstanding.map Taken.entry ++ usedQ

/-- `availQ` and `usedQ` are the queues in the two rings. -/
structure Core (tr : List (Event N)) (v : Fin N → View) (d : Disk) (availQ usedQ : List Entry) :
    Prop where
  bufs : ∀ p q c e, (v p).call = some c → (v q).call = some e → c.b = e.b → p = q
  chain : ∀ p j, (v p).job = some j → j.idx.Nodup ∧ ∀ i ∈ j.idx, i < NUM ∧ d.free i = false
  apart : ∀ p q j k i, (v p).job = some j → (v q).job = some k → i ∈ j.idx → i ∈ k.idx → p = q
  owned : ∀ i, d.free i = false → ∃ p j, (v p).job = some j ∧ i ∈ j.idx
  formatted : ∀ p j, (v p).job = some j → Formatted d j
  prepared : ∀ p j, v p = .building j →
    d.availRing (d.availIdx % NUM) = ⟨j.i0, d.made⟩ ∧ d.bdisk j.call.b = true
  avail : Holds NUM IDX d.availRing d.lastAvail d.availIdx availQ
  used : Holds NUM IDX d.usedRing d.used_idx d.usedIdx usedQ
  heads : ((d.pending availQ usedQ).map Entry.head).Nodup
  pending : ∀ e ∈ d.pending availQ usedQ,
    ∃ p j, v p = .flying j e.num ∧ j.i0 = e.head ∧ d.bdisk j.call.b = true
  parsed : ∀ t ∈ d.outstanding, ∃ p j, v p = .flying j t.entry.num ∧ t = j.taken t.entry.num
  status : ∀ e ∈ usedQ, (d.info e.head).status = 0
  done : ∀ e ∈ usedQ, ∀ p j, v p = .flying j e.num → j.i0 = e.head → .completed (j.taken e.num) ∈ tr
  finished : ∀ p j num, v p = .flying j num → d.bdisk j.call.b = false →
    .completed (j.taken num) ∈ tr
  submitted : ∀ p j num, v p = .flying j num → .submitted p num ∈ tr
  numbered : tr.filterMap Event.submission = List.range d.made

theorem Job.i0_mem (j : Job) : j.i0 ∈ j.idx := mem_cons_self

theorem Job.i1_mem (j : Job) : j.i1 ∈ j.idx := mem_cons_of_mem _ mem_cons_self

theorem Job.i2_mem (j : Job) : j.i2 ∈ j.idx :=
  mem_cons_of_mem _ (mem_cons_of_mem _ mem_cons_self)

/-- What is written for a job stands while its own entries do. -/
theorem Formatted.congr {d d' : Disk} (h : Formatted d j)
    (hdesc : ∀ i ∈ j.idx, d'.desc i = d.desc i) (hops : d'.ops j.i0 = d.ops j.i0)
    (hinfo : (d'.info j.i0).b = (d.info j.i0).b) : Formatted d' j where
  desc0 := (hdesc _ j.i0_mem).trans h.desc0
  desc1 := (hdesc _ j.i1_mem).trans h.desc1
  desc2 := (hdesc _ j.i2_mem).trans h.desc2
  ops := hops.trans h.ops
  info := hinfo.trans h.info

theorem Formatted.flags0 (h : Formatted d j) :
    (d.desc j.i0).flags &&& VRING_DESC_F_NEXT ≠ 0#16 := by
  simp only [h.desc0]
  decide

theorem Formatted.flags1 (h : Formatted d j) :
    (d.desc j.i1).flags &&& VRING_DESC_F_NEXT ≠ 0#16 := by
  simp only [h.desc1]
  cases j.call.write <;> decide

theorem Formatted.flags2 (h : Formatted d j) :
    (d.desc j.i2).flags &&& VRING_DESC_F_NEXT = 0#16 := by
  simp only [h.desc2]
  decide

theorem formatted_format (d : Disk) (hnd : j.idx.Nodup) : Formatted (d.format j) j := by
  simp only [Job.idx, nodup_cons, mem_cons, not_mem_nil, or_false, not_or] at hnd
  obtain ⟨⟨h01, h02⟩, h12, -, -⟩ := hnd
  constructor <;> simp [Disk.format, h01, h02, h12]

theorem format_desc_of_not_mem (d : Disk) (hi : i ∉ j.idx) : (d.format j).desc i = d.desc i := by
  simp only [Job.idx, mem_cons, not_mem_nil, or_false, not_or] at hi
  obtain ⟨h0, h1, h2⟩ := hi
  simp [Disk.format, h0, h1, h2]

theorem NUM_dvd_IDX : NUM ∣ IDX := ⟨8192, rfl⟩

theorem NUM_lt_IDX : NUM < IDX := by decide

section Rules

variable {tr : List (Event N)} {v : Fin N → View} {d : Disk} {availQ usedQ : List Entry}
  {p q : Fin N} {j k : Job} {c : Call} {e : Entry} {num : Nat}

theorem View.job_call {w : View} (h : w.job = some j) : w.call = some j.call := by
  cases w with
  | building k | flying k n => cases h; rfl
  | out | waiting c => cases h

section

variable {ev : Event N} {i : Nat} (hc : Core tr v d availQ usedQ)
include hc

/-- A step that submits nothing. -/
theorem Core.mono (he : ev.submission = none) : Core (tr ++ [ev]) v d availQ usedQ :=
  { hc with
    done := fun e he p j hv h0 => mem_append_left _ (hc.done e he p j hv h0)
    finished := fun p j num hv hb => mem_append_left _ (hc.finished p j num hv hb)
    submitted := fun p j num hv => mem_append_left _ (hc.submitted p j num hv)
    numbered := by simp [hc.numbered, he] }

theorem Core.owner_unique (hp : (v p).job = some j) (hq : (v q).job = some k) (h0 : j.i0 = k.i0) :
    p = q :=
  hc.apart p q j k j.i0 hp hq j.i0_mem (h0 ▸ k.i0_mem)

/-- The head of a pending request is a descriptor in use. -/
theorem Core.head_used (he : e ∈ d.pending availQ usedQ) :
    e.head < NUM ∧ d.free e.head = false := by
  obtain ⟨p, j, hv, h0, -⟩ := hc.pending e he
  rw [← h0]
  exact (hc.chain p j (by rw [hv]; rfl)).2 _ j.i0_mem

theorem Core.length_le {l : List Nat} (hl : ∀ e ∈ d.pending availQ usedQ, e.head ∈ l) :
    (d.pending availQ usedQ).length ≤ l.length := by
  have hsub : (d.pending availQ usedQ).map Entry.head ⊆ l := by
    intro x hx
    obtain ⟨e, he, rfl⟩ := mem_map.mp hx
    exact hl e he
  have hle := (hc.heads.subperm hsub).length_le
  rwa [length_map] at hle

/-- Fewer requests are pending than there are descriptors, if one of them is
    the head of none. -/
theorem Core.room (hi : i < NUM) (hne : ∀ e ∈ d.pending availQ usedQ, e.head ≠ i) :
    (d.pending availQ usedQ).length < NUM := by
  have hle := hc.length_le (l := (range NUM).erase i) fun e he =>
    (mem_erase_of_ne (hne e he)).mpr (mem_range.mpr (hc.head_used he).1)
  rw [length_erase_of_mem (mem_range.mpr hi), length_range] at hle
  have : 0 < NUM := by decide
  omega

theorem Core.pending_le : (d.pending availQ usedQ).length ≤ NUM := by
  have hle := hc.length_le fun e he => mem_range.mpr (hc.head_used he).1
  rwa [length_range] at hle

end

theorem Disk.availQ_length_le (d : Disk) (availQ usedQ : List Entry) :
    availQ.length ≤ (d.pending availQ usedQ).length := by
  simp only [Disk.pending, length_append]
  omega

/-- A view that is not `w` is that of another process. -/
theorem update_view_iff {w x : View} (hp : v p ≠ x) (hw : w ≠ x) :
    update v p w q = x ↔ v q = x := by
  by_cases hq : q = p
  · subst hq
    rw [update_self]
    exact ⟨fun h => absurd h hw, fun h => absurd h hp⟩
  · rw [update_of_ne hq]

section

variable {desc : Nat → Desc} {d' : Disk} {n : Nat} {t : Taken} (hc : Core tr v d availQ usedQ)
include hc

/-- A process enters the driver with a buffer that no other call is about. -/
theorem Core.enter (hp : v p = .out) (hb : ∀ q e, (v q).call = some e → e.b ≠ c.b) :
    Core tr (update v p (.waiting c)) d availQ usedQ := by
  -- `p` has no job before or after
  have hjob : ∀ q, (update v p (.waiting c) q).job = (v q).job := update_proj (by rw [hp]; rfl)
  have hbuild : ∀ {q j}, update v p (.waiting c) q = .building j ↔ v q = .building j :=
    fun {q j} => update_view_iff (by simp [hp]) (by simp)
  have hfly : ∀ {q j n}, update v p (.waiting c) q = .flying j n ↔ v q = .flying j n :=
    fun {q j n} => update_view_iff (by simp [hp]) (by simp)
  refine ⟨?_, ?_, ?_, ?_, ?_, ?_, hc.avail, hc.used, hc.heads, ?_, ?_, hc.status, ?_, ?_, ?_,
    hc.numbered⟩
  · intro q r e f
    refine update_one q ?_ fun q _ => ?_
    · refine update_one r (fun _ _ _ => rfl) fun r _ he hf hef => ?_
      cases he
      exact absurd hef.symm (hb r f hf)
    · refine update_one r (fun he hf hef => ?_) fun r _ => hc.bufs q r e f
      cases hf
      exact absurd hef (hb q e he)
  · intro q j h
    exact hc.chain q j (hjob q ▸ h)
  · intro q r j k i hj hk
    exact hc.apart q r j k i (hjob q ▸ hj) (hjob r ▸ hk)
  · intro i hi
    obtain ⟨q, j, hj, hmem⟩ := hc.owned i hi
    exact ⟨q, j, (hjob q).trans hj, hmem⟩
  · intro q j h
    exact hc.formatted q j (hjob q ▸ h)
  · intro q j h
    exact hc.prepared q j (hbuild.mp h)
  · intro e he
    obtain ⟨q, j, hv, h⟩ := hc.pending e he
    exact ⟨q, j, hfly.mpr hv, h⟩
  · intro t ht
    obtain ⟨q, j, hv, h⟩ := hc.parsed t ht
    exact ⟨q, j, hfly.mpr hv, h⟩
  · intro e he q j hv
    exact hc.done e he q j (hfly.mp hv)
  · intro q j num hv
    exact hc.finished q j num (hfly.mp hv)
  · intro q j num hv
    exact hc.submitted q j num (hfly.mp hv)

/-- `alloc3_desc` gives descriptors back: those in use keep their contents. -/
theorem Core.roll (hdesc : ∀ i, d.free i = false → desc i = d.desc i) :
    Core tr v { d with desc := desc } availQ usedQ :=
  { hc with
    formatted := by
      intro q j hj
      refine (hc.formatted q j hj).congr ?_ rfl rfl
      intro i hi
      exact hdesc i ((hc.chain q j hj).2 i hi).2 }

/-- Three free descriptors become the chain of `p`, and are written. -/
theorem Core.format (hp : v p = .waiting j.call) (hnb : ∀ q k, v q ≠ .building k)
    (hnd : j.idx.Nodup) (hlt : ∀ i ∈ j.idx, i < NUM ∧ d.free i = true) :
    Core tr (update v p (.building j))
      (Disk.format { d with free := fun i => if i ∈ j.idx then false else d.free i } j)
      availQ usedQ := by
  -- the chains of the others consist of other descriptors
  have hother : ∀ {q k i}, (v q).job = some k → i ∈ k.idx → i ∉ j.idx := by
    intro q k i hk hi hij
    have := ((hc.chain q k hk).2 i hi).2
    rw [(hlt i hij).2] at this
    cases this
  have hjob : ∀ {q k}, (update v p (.building j) q).job = some k →
      q = p ∧ k = j ∨ q ≠ p ∧ (v q).job = some k := by
    intro q k h
    rcases update_cases (fun w => View.job w = some k) h with ⟨hq, h⟩ | h
    · exact .inl ⟨hq, (Option.some.inj h).symm⟩
    · exact .inr h
  have hcall : ∀ q, (update v p (.building j) q).call = (v q).call := update_proj (by rw [hp]; rfl)
  have hfly : ∀ {q k n}, update v p (.building j) q = .flying k n ↔ v q = .flying k n :=
    fun {q k n} => update_view_iff (by simp [hp]) (by simp)
  -- a request in flight is about another buffer
  have hbuf : ∀ {q k n}, v q = .flying k n → k.call.b ≠ j.call.b := by
    intro q k n hv hb
    have hqp := hc.bufs q p k.call j.call (by rw [hv]; rfl) (by rw [hp]; rfl) hb
    subst hqp
    rw [hp] at hv
    cases hv
  have hhead : ∀ e ∈ d.pending availQ usedQ, e.head ≠ j.i0 := by
    intro e he h0
    have := (hc.head_used he).2
    rw [h0, (hlt _ j.i0_mem).2] at this
    cases this
  have hroom : availQ.length < NUM :=
    lt_of_le_of_lt (d.availQ_length_le availQ usedQ) (hc.room (hlt _ j.i0_mem).1 hhead)
  refine ⟨?_, ?_, ?_, ?_, ?_, ?_, ?_, hc.used, hc.heads, ?_, ?_, ?_, ?_, ?_, ?_, hc.numbered⟩
  · intro q r e f he hf
    exact hc.bufs q r e f (hcall q ▸ he) (hcall r ▸ hf)
  · intro q k hk
    rcases hjob hk with ⟨-, rfl⟩ | ⟨-, hk⟩
    · exact ⟨hnd, fun i hi => ⟨(hlt i hi).1, by simp [Disk.format, hi]⟩⟩
    · refine ⟨(hc.chain q k hk).1, fun i hi => ⟨((hc.chain q k hk).2 i hi).1, ?_⟩⟩
      simp [Disk.format, hother hk hi, ((hc.chain q k hk).2 i hi).2]
  · intro q r k l i hk hl hik hil
    rcases hjob hk with ⟨rfl, rfl⟩ | ⟨-, hk⟩
    · rcases hjob hl with ⟨rfl, -⟩ | ⟨-, hl⟩
      · rfl
      · exact absurd hik (hother hl hil)
    · rcases hjob hl with ⟨-, hlj⟩ | ⟨-, hl⟩
      · exact absurd (hlj ▸ hil) (hother hk hik)
      · exact hc.apart q r k l i hk hl hik hil
  · intro i hi
    by_cases hij : i ∈ j.idx
    · exact ⟨p, j, by rw [update_self]; rfl, hij⟩
    · have hfree : d.free i = false := by simpa [Disk.format, hij] using hi
      obtain ⟨q, k, hk, hik⟩ := hc.owned i hfree
      have hq : q ≠ p := by
        intro h
        rw [h, hp] at hk
        cases hk
      exact ⟨q, k, by rw [update_of_ne hq]; exact hk, hik⟩
  · intro q k hk
    rcases hjob hk with ⟨-, rfl⟩ | ⟨-, hk⟩
    · exact formatted_format _ hnd
    · have h0 : k.i0 ≠ j.i0 := fun h => hother hk k.i0_mem (h ▸ j.i0_mem)
      refine (hc.formatted q k hk).congr ?_ ?_ ?_
      · intro i hi
        exact format_desc_of_not_mem _ (hother hk hi)
      · simp [Disk.format, h0]
      · simp [Disk.format, h0]
  · intro q k hk
    rcases update_cases (· = View.building k) hk with ⟨-, hk⟩ | ⟨-, hk⟩
    · cases hk
      simp [Disk.format]
    · exact absurd hk (hnb q k)
  · exact hc.avail.write NUM_dvd_IDX hroom _
  · intro e he
    obtain ⟨q, k, hv, h0, hb⟩ := hc.pending e he
    refine ⟨q, k, hfly.mpr hv, h0, ?_⟩
    simp [Disk.format, hbuf hv, hb]
  · intro t ht
    obtain ⟨q, k, hv, h⟩ := hc.parsed t ht
    exact ⟨q, k, hfly.mpr hv, h⟩
  · intro e he
    simp [Disk.format, hhead e (mem_append_right _ he), hc.status e he]
  · intro e he q k hv
    exact hc.done e he q k (hfly.mp hv)
  · intro q k num hv hb
    have hv := hfly.mp hv
    refine hc.finished q k num hv ?_
    simpa [Disk.format, hbuf hv] using hb
  · intro q k num hv
    exact hc.submitted q k num (hfly.mp hv)

/-- Raising `avail->idx` puts the entry into the queue of the avail ring. -/
theorem Core.publish (hp : v p = .building j) (hnb : ∀ q k, v q = .building k → q = p) :
    Core (tr ++ [.submitted p d.made]) (update v p (.flying j d.made)) d.publish
      (availQ ++ [⟨j.i0, d.made⟩]) usedQ := by
  obtain ⟨hring, hdisk⟩ := hc.prepared p j hp
  have hpj : (v p).job = some j := by rw [hp]; rfl
  have hjob : ∀ q, (update v p (.flying j d.made) q).job = (v q).job :=
    update_proj (by rw [hp]; rfl)
  have hcall : ∀ q, (update v p (.flying j d.made) q).call = (v q).call :=
    update_proj (by rw [hp]; rfl)
  have hfly : ∀ {q k n}, v q = .flying k n → update v p (.flying j d.made) q = .flying k n := by
    intro q k n hv
    have hq : q ≠ p := by
      intro h
      rw [h, hp] at hv
      cases hv
    rw [update_of_ne hq, hv]
  have hfly' : ∀ {q k n}, update v p (.flying j d.made) q = .flying k n →
      q = p ∧ k = j ∧ n = d.made ∨ v q = .flying k n := by
    intro q k n hv
    rcases update_cases (· = View.flying k n) hv with ⟨hq, hv⟩ | ⟨-, hv⟩
    · cases hv
      exact .inl ⟨hq, rfl, rfl⟩
    · exact .inr hv
  -- the chain of `p` is not in the rings yet
  have hfresh : ∀ e ∈ d.pending availQ usedQ, e.head ≠ j.i0 := by
    intro e he h0
    obtain ⟨q, k, hv, hk, -⟩ := hc.pending e he
    have hqp := hc.owner_unique (by rw [hv]; rfl) hpj (hk.trans h0)
    rw [hqp, hp] at hv
    cases hv
  have hroom : availQ.length < NUM :=
    lt_of_le_of_lt (d.availQ_length_le availQ usedQ)
      (hc.room ((hc.chain p j hpj).2 _ j.i0_mem).1 hfresh)
  have hperm : (d.publish.pending (availQ ++ [⟨j.i0, d.made⟩]) usedQ).Perm
      (⟨j.i0, d.made⟩ :: d.pending availQ usedQ) := by
    simp only [Disk.pending, Disk.publish, append_assoc, singleton_append]
    exact perm_middle
  refine ⟨?_, ?_, ?_, ?_, ?_, ?_, hc.avail.advance hroom hring, hc.used, ?_, ?_, ?_, hc.status, ?_,
    ?_, ?_, ?_⟩
  · intro q r e f he hf
    exact hc.bufs q r e f (hcall q ▸ he) (hcall r ▸ hf)
  · intro q k hk
    exact hc.chain q k (hjob q ▸ hk)
  · intro q r k l i hk hl
    exact hc.apart q r k l i (hjob q ▸ hk) (hjob r ▸ hl)
  · intro i hi
    obtain ⟨q, k, hk, hik⟩ := hc.owned i hi
    exact ⟨q, k, (hjob q).trans hk, hik⟩
  · intro q k hk
    exact (hc.formatted q k (hjob q ▸ hk)).congr (fun _ _ => rfl) rfl rfl
  · intro q k hk
    obtain ⟨hq, hk⟩ := update_other (· = View.building k) hk nofun
    exact absurd (hnb q k hk) hq
  · rw [(hperm.map Entry.head).nodup_iff, map_cons, nodup_cons]
    refine ⟨?_, hc.heads⟩
    intro hmem
    obtain ⟨e, he, h0⟩ := mem_map.mp hmem
    exact hfresh e he h0
  · intro e he
    rcases mem_cons.mp (hperm.mem_iff.mp he) with rfl | he
    · exact ⟨p, j, update_self _ _ _, rfl, hdisk⟩
    · obtain ⟨q, k, hv, h⟩ := hc.pending e he
      exact ⟨q, k, hfly hv, h⟩
  · intro t ht
    obtain ⟨q, k, hv, h⟩ := hc.parsed t ht
    exact ⟨q, k, hfly hv, h⟩
  · intro e he q k hv h0
    rcases hfly' hv with ⟨-, rfl, -⟩ | hv
    · exact absurd h0.symm (hfresh e (mem_append_right _ he))
    · exact mem_append_left _ (hc.done e he q k hv h0)
  · intro q k num hv hb
    rcases hfly' hv with ⟨-, rfl, -⟩ | hv
    · rw [show d.publish.bdisk k.call.b = d.bdisk k.call.b from rfl, hdisk] at hb
      cases hb
    · exact mem_append_left _ (hc.finished q k num hv hb)
  · intro q k num hv
    rcases hfly' hv with ⟨rfl, -, rfl⟩ | hv
    · exact mem_append_right _ (mem_singleton.mpr rfl)
    · exact mem_append_left _ (hc.submitted q k num hv)
  · rw [filterMap_append, hc.numbered]
    exact range_succ.symm

/-- The device takes an entry and reads what its caller wrote. -/
theorem Core.take (ht : d.take = some d') :
    ∃ e availQ', availQ = e :: availQ' ∧ Core tr v d' availQ' usedQ := by
  unfold Disk.take at ht
  split at ht
  · cases ht
  next hne =>
  injection ht with ht
  cases hq : availQ with
  | nil => exact absurd ((hc.avail.empty_iff NUM_lt_IDX).mpr hq) hne
  | cons e availQ' =>
    subst hq
    obtain ⟨hentry, hrest⟩ := hc.avail.take (by decide)
    obtain ⟨p, j, hv, h0, hb⟩ := hc.pending e (by simp [Disk.pending])
    have hf := hc.formatted p j (by rw [hv]; rfl)
    have htaken : (⟨d.availRing (d.lastAvail % NUM),
        match (d.desc (d.availRing (d.lastAvail % NUM)).head).addr with
          | .ops i => some (d.ops i)
          | _ => none,
        (d.desc (d.desc (d.availRing (d.lastAvail % NUM)).head).next).addr,
        (d.desc (d.desc (d.desc (d.availRing (d.lastAvail % NUM)).head).next).next).addr⟩ : Taken) =
          j.taken e.num := by
      rw [hentry, ← h0, hf.desc0, hf.desc1, hf.desc2]
      simp only [hf.ops]
      rw [show e = ⟨j.i0, e.num⟩ by rw [h0]]
      rfl
    simp only [htaken] at ht
    subst ht
    have hperm : (availQ' ++ (d.outstanding ++ [j.taken e.num]).map Taken.entry ++ usedQ).Perm
        (d.pending (e :: availQ') usedQ) := by
      have he : (j.taken e.num).entry = e := by
        rw [show e = ⟨j.i0, e.num⟩ by rw [h0]]
        rfl
      simp only [Disk.pending, map_append, map_singleton, he, append_assoc,
        cons_append]
      rw [← append_assoc, ← append_assoc]
      exact perm_middle
    refine ⟨e, availQ', rfl, { hc with
      avail := hrest, heads := ?_, pending := ?_, parsed := ?_
      formatted := fun q k hk => (hc.formatted q k hk).congr (fun _ _ => rfl) rfl rfl }⟩
    · exact ((hperm.map Entry.head).nodup_iff).mpr hc.heads
    · intro f hf
      exact hc.pending f (hperm.mem_iff.mp hf)
    · intro t ht
      rcases mem_append.mp ht with ht | ht
      · exact hc.parsed t ht
      · rw [mem_singleton.mp ht]
        exact ⟨p, j, hv, rfl⟩

/-- The device completes a request. -/
theorem Core.complete (ht : d.complete n = some (t, d')) :
    Core (tr ++ [.completed t]) v d' availQ (usedQ ++ [t.entry]) := by
  unfold Disk.complete at ht
  split at ht
  · cases ht
  next t' hn =>
  injection ht with ht
  injection ht with ht hd
  subst ht
  have hmem : t' ∈ d.outstanding := List.mem_of_getElem? hn
  obtain ⟨p, j, hv, hj⟩ := hc.parsed t' hmem
  generalize t'.entry.num = num at hv hj
  subst hj
  have hstatus : (j.taken num).status = .status j.i0 := rfl
  simp only [hstatus] at hd
  subst hd
  have hperm : (d.outstanding).Perm (j.taken num :: d.outstanding.eraseIdx n) := by
    obtain ⟨hlt, hget⟩ := List.getElem?_eq_some_iff.mp hn
    rw [← hget]
    exact (List.getElem_cons_eraseIdx_perm hlt).symm
  have hpend : (availQ ++ (d.outstanding.eraseIdx n).map Taken.entry ++
    (usedQ ++ [(j.taken num).entry])).Perm
      (d.pending availQ usedQ) := by
    refine List.Perm.trans ?_ (((hperm.map Taken.entry).append_left availQ).append_right usedQ).symm
    rw [List.map_cons, List.append_assoc, List.append_assoc]
    refine List.Perm.append_left availQ ?_
    rw [← List.append_assoc]
    exact List.perm_append_singleton _ _
  have hroom : usedQ.length < NUM := by
    have hle := hc.pending_le
    rw [← hpend.length_eq] at hle
    simp only [List.length_append, List.length_singleton] at hle
    omega
  refine
    { hc.mono (show Event.submission (.completed (j.taken num)) = none from rfl) with
      formatted := ?_
      used := hc.used.put NUM_dvd_IDX hroom _
      heads := ((hpend.map Entry.head).nodup_iff).mpr hc.heads
      pending := fun e he => hc.pending e (hpend.mem_iff.mp he)
      parsed := fun t ht => hc.parsed t (List.mem_of_mem_eraseIdx ht)
      status := ?_, done := ?_ }
  · intro q k hk
    refine (hc.formatted q k hk).congr (fun _ _ => rfl) rfl ?_
    by_cases h0 : k.i0 = j.i0
    · simp [h0]
    · simp [h0]
  · intro e he
    by_cases h0 : e.head = j.i0
    · simp [h0]
    · rcases List.mem_append.mp he with he | he
      · simp [h0, hc.status e he]
      · rw [List.mem_singleton.mp he] at h0
        exact absurd rfl h0
  · intro e he q k hv' h0
    rcases List.mem_append.mp he with he | he
    · exact List.mem_append_left _ (hc.done e he q k hv' h0)
    · -- the chain has one owner, so that `q` is the caller
      rw [List.mem_singleton.mp he] at hv' h0 ⊢
      have hqp := hc.owner_unique (by rw [hv']; rfl) (by rw [hv]; rfl) h0
      subst hqp
      rw [hv] at hv'
      cases hv'
      exact List.mem_append_right _ (List.mem_singleton.mpr rfl)

/-- The handler finds the buffer of the request, and status 0. -/
theorem Core.read (hne : d.used_idx ≠ d.usedIdx) :
    ∃ e usedQ' p j, usedQ = e :: usedQ' ∧ d.usedRing (d.used_idx % NUM) = e ∧
      v p = .flying j e.num ∧ j.i0 = e.head ∧ d.info e.head = ⟨some j.call.b, 0⟩ := by
  cases hq : usedQ with
  | nil => exact absurd ((hc.used.empty_iff NUM_lt_IDX).mpr hq) hne
  | cons e usedQ' =>
    subst hq
    obtain ⟨hentry, -⟩ := hc.used.take (by decide)
    obtain ⟨p, j, hv, h0, -⟩ := hc.pending e (by simp [Disk.pending])
    have hb := (hc.formatted p j (by rw [hv]; rfl)).info
    have hs := hc.status e mem_cons_self
    rw [h0] at hb
    exact ⟨e, usedQ', p, j, rfl, hentry, hv, h0, by rw [← hb, ← hs]⟩

end

/-- `b->disk = 0` for the request at the head of the used ring. -/
theorem Core.handle (hc : Core tr v d availQ (e :: usedQ)) (hp : v p = .flying j e.num)
    (h0 : j.i0 = e.head) :
    Core tr v { d with
      bdisk := update d.bdisk j.call.b false
      used_idx := (d.used_idx + 1) % IDX } availQ usedQ := by
  have hpj : (v p).job = some j := by rw [hp]; rfl
  have hsub : ∀ f ∈ availQ ++ d.outstanding.map Taken.entry ++ usedQ,
      f ∈ d.pending availQ (e :: usedQ) := by
    intro f hf
    simp only [Disk.pending, mem_append, mem_cons] at hf ⊢
    tauto
  have hperm : (d.pending availQ (e :: usedQ)).Perm
      (e :: (availQ ++ d.outstanding.map Taken.entry ++ usedQ)) := perm_middle
  have hheads := ((hperm.map Entry.head).nodup_iff).mp hc.heads
  rw [map_cons, nodup_cons] at hheads
  -- another call is about another buffer
  have hbuf : ∀ {q f}, (v q).call = some f → q ≠ p → f.b ≠ j.call.b := by
    intro q f hf hq hb
    exact hq (hc.bufs q p f j.call hf (View.job_call hpj) hb)
  refine
    { hc with
      formatted := fun q k hk => (hc.formatted q k hk).congr (fun _ _ => rfl) rfl rfl
      prepared := ?_, used := (hc.used.take (by decide)).2, heads := hheads.2, pending := ?_
      status := fun f hf => hc.status f (mem_cons_of_mem e hf)
      done := fun f hf => hc.done f (mem_cons_of_mem e hf)
      finished := ?_ }
  · intro q k hk
    have hq : q ≠ p := by
      intro h
      rw [h, hp] at hk
      cases hk
    obtain ⟨hring, hb⟩ := hc.prepared q k hk
    refine ⟨hring, ?_⟩
    simp [hbuf (q := q) (f := k.call) (by rw [hk]; rfl) hq, hb]
  · intro f hf
    obtain ⟨q, k, hv, hk, hb⟩ := hc.pending f (hsub f hf)
    have hq : q ≠ p := by
      intro h
      subst h
      rw [hp] at hv
      injection hv with hjk
      subst hjk
      exact hheads.1 (mem_map.mpr ⟨f, hf, hk.symm.trans h0⟩)
    refine ⟨q, k, hv, hk, ?_⟩
    simp [hbuf (q := q) (f := k.call) (by rw [hv]; rfl) hq, hb]
  · intro q k num hv hb
    by_cases hq : q = p
    · subst hq
      rw [hp] at hv
      cases hv
      exact hc.done e mem_cons_self q j hp h0
    · have hne := hbuf (q := q) (f := k.call) (by rw [hv]; rfl) hq
      refine hc.finished q k num hv ?_
      simpa [hne] using hb

/-- `p` frees its chain and leaves. -/
theorem Core.leave (hc : Core tr v d availQ usedQ) (hp : v p = .flying j num)
    (hb : d.bdisk j.call.b = false) :
    Core tr (update v p .out)
      { d with
        info := update d.info j.i0 ⟨none, (d.info j.i0).status⟩
        desc := fun i => if i ∈ j.idx then ⟨.null, 0, 0#16, 0⟩ else d.desc i
        free := fun i => if i ∈ j.idx then true else d.free i } availQ usedQ := by
  have hpj : (v p).job = some j := by rw [hp]; rfl
  have hjob : ∀ {q k}, (update v p .out q).job = some k → q ≠ p ∧ (v q).job = some k :=
    fun {q k} h => update_other (fun w => View.job w = some k) h nofun
  have hcall : ∀ {q f}, (update v p .out q).call = some f → (v q).call = some f :=
    fun {q f} h => (update_other (fun w => View.call w = some f) h nofun).2
  have hfly : ∀ {q k n}, update v p .out q = .flying k n → v q = .flying k n :=
    fun {q k n} h => (update_other (· = View.flying k n) h nofun).2
  have hother : ∀ {q k i}, (v q).job = some k → q ≠ p → i ∈ k.idx → i ∉ j.idx := by
    intro q k i hk hq hi hij
    exact hq (hc.apart q p k j i hk hpj hi hij)
  -- what is pending belongs to others: its buffer still waits for the disk
  have hothers : ∀ {e : Entry} {q k}, v q = .flying k e.num → d.bdisk k.call.b = true → q ≠ p := by
    intro e q k hv hb' h
    subst h
    rw [hp] at hv
    injection hv with hjk
    rw [← hjk, hb] at hb'
    cases hb'
  refine
    { hc with
      bufs := fun q r e f he hf => hc.bufs q r e f (hcall he) (hcall hf)
      chain := ?_
      apart := fun q r k l i hk hl => hc.apart q r k l i (hjob hk).2 (hjob hl).2
      owned := ?_, formatted := ?_, prepared := ?_, pending := ?_, parsed := ?_, status := ?_
      done := fun e he q k hv => hc.done e he q k (hfly hv)
      finished := fun q k n hv => hc.finished q k n (hfly hv)
      submitted := fun q k n hv => hc.submitted q k n (hfly hv) }
  · intro q k hk
    obtain ⟨hq, hk⟩ := hjob hk
    refine ⟨(hc.chain q k hk).1, fun i hi => ⟨((hc.chain q k hk).2 i hi).1, ?_⟩⟩
    simp [hother hk hq hi, ((hc.chain q k hk).2 i hi).2]
  · intro i hi
    have hij : i ∉ j.idx := by
      intro h
      simp [h] at hi
    obtain ⟨q, k, hk, hik⟩ := hc.owned i (by simpa [hij] using hi)
    have hq : q ≠ p := by
      intro h
      rw [h, hpj] at hk
      cases hk
      exact hij hik
    exact ⟨q, k, by rw [update_of_ne hq]; exact hk, hik⟩
  · intro q k hk
    obtain ⟨hq, hk⟩ := hjob hk
    have h0 : k.i0 ≠ j.i0 := fun h => hother hk hq k.i0_mem (h ▸ j.i0_mem)
    refine (hc.formatted q k hk).congr ?_ rfl ?_
    · intro i hi
      simp [hother hk hq hi]
    · simp [h0]
  · intro q k hk
    exact hc.prepared q k (update_other (· = View.building k) hk nofun).2
  · intro e he
    obtain ⟨q, k, hv, h0, hb'⟩ := hc.pending e he
    exact ⟨q, k, by rw [update_of_ne (hothers hv hb')]; exact hv, h0, hb'⟩
  · intro t ht
    obtain ⟨q, k, hv, hk⟩ := hc.parsed t ht
    have hmem : t.entry ∈ d.pending availQ usedQ :=
      mem_append_left _ (mem_append_right _ (mem_map_of_mem ht))
    obtain ⟨r, l, hv', h0, hb'⟩ := hc.pending t.entry hmem
    have hrq : r = q := hc.owner_unique (by rw [hv']; rfl) (by rw [hv]; rfl) (by rw [h0, hk]; rfl)
    subst hrq
    rw [hv] at hv'
    cases hv'
    exact ⟨r, k, by rw [update_of_ne (hothers hv hb')]; exact hv, hk⟩
  · intro e he
    have hs := hc.status e he
    by_cases h0 : e.head = j.i0
    · rw [h0] at hs
      simp [h0, hs]
    · simp [h0, hs]

end Rules

/-! ## 4. The protocol -/

section Runs

variable {tr : List (Event N)} {s s' : State N H} {e : Event N} {p : Fin N} {h : Fin H} {k : Job}
  {q : Fin N}

def Inv (tr : List (Event N)) (s : State N H) : Prop :=
  Guards id s.vdisk_lock s.inside ∧ ∃ availQ usedQ, Core tr s.views s.disk availQ usedQ

/-- A request of the call `c` with number `num` was completed. -/
def Completed (tr : List (Event N)) (c : Call) (num : Nat) : Prop :=
  ∃ t, .completed t ∈ tr ∧ t.entry.num = num ∧ t.req = some c.blkReq ∧ t.data = .data c.b

/-- The cells of the avail ring that the device has yet to take. -/
def Disk.untaken (d : Disk) (x : Nat) : Prop :=
  ∃ i, i < (d.availIdx + IDX - d.lastAvail) % IDX ∧ x = (d.lastAvail + i) % IDX % NUM

/-- What one step does. -/
structure StepOk (tr : List (Event N)) (s : State N H) (e : Event N) (s' : State N H) : Prop where
  inv : Inv (tr ++ [e]) s'
  returned : ∀ p c num, e = .returned p c num → .submitted p num ∈ tr ∧ Completed tr c num
  untaken : ∀ x, s.disk.untaken x → s'.disk.availRing x = s.disk.availRing x
  noPanic : ∀ msg, e ≠ .panic msg

/-- A step that leaves the avail ring alone and is not seen. -/
theorem StepOk.quiet (hinv : Inv (tr ++ [.tau]) s') (hring : s'.disk.availRing = s.disk.availRing) :
    StepOk tr s .tau s' where
  inv := hinv
  returned := by simp
  untaken := fun x _ => by rw [hring]
  noPanic := by simp

open State

/-- The caller at `publish` is inside the lock. -/
theorem inside_of_building (hv : s.views q = .building k) : s.inside (.inl q) = true := by
  unfold views at hv
  cases hpc : s.proc q with
  | publish j => simp [inside, hpc, holds]
  | _ => rw [hpc] at hv; cases hv

/-- Only the process inside the lock can be at `publish`. -/
theorem building_unique (hl : Guards id s.vdisk_lock s.inside) (hp : (s.proc p).holds = true)
    (hv : s.views q = .building k) : q = p :=
  Sum.inl.inj (hl.unique (inside_of_building hv) hp)

section

variable {j : Job} {num : Nat} (hi : Inv tr s)
include hi

/-- A process moves without a change of its view or of the lock. -/
theorem Inv.goto (hv : c.view = (s.proc p).view) (hh : c.holds = (s.proc p).holds) :
    Inv (tr ++ [.tau]) (s.goto p c) := by
  obtain ⟨hl, availQ, usedQ, hc⟩ := hi
  refine ⟨?_, availQ, usedQ, ?_⟩
  · rw [inside_goto]
    exact hl.keep hh
  · rw [views_goto_same hv]
    exact hc.mono rfl

theorem Inv.acquire (hv : c.view = (s.proc p).view) (hh : c.holds = true)
    (hs : s.acquire p c = some (e, s')) : StepOk tr s e s' := by
  obtain ⟨hnone, hs⟩ := Option.ite_none_right_eq_some.mp hs
  cases hs
  obtain ⟨hl, availQ, usedQ, hc⟩ := hi
  refine StepOk.quiet ⟨?_, availQ, usedQ, ?_⟩ rfl
  · show Guards id (some (Sum.inl p)) (s.goto p c).inside
    rw [State.inside_goto]
    exact hl.acquire hnone hh
  · show Core _ (s.goto p c).views s.disk availQ usedQ
    rw [views_goto_same hv]
    exact hc.mono rfl

/-- A process inside the lock goes to sleep. -/
theorem Inv.release (hp : (s.proc p).holds = true) (hv : c.view = (s.proc p).view)
    (hh : c.holds = false) : Inv (tr ++ [.tau]) (s.release p c) := by
  obtain ⟨hl, availQ, usedQ, hc⟩ := hi
  refine ⟨?_, availQ, usedQ, ?_⟩
  · show Guards id none (s.goto p c).inside
    rw [inside_goto]
    exact hl.release hp hh
  · show Core _ (s.goto p c).views s.disk availQ usedQ
    rw [views_goto_same hv]
    exact hc.mono rfl

/-- `alloc3_desc` found too few. -/
theorem Inv.rolled (hr : State.Rolled s s') : Inv tr s' := by
  obtain ⟨hl, availQ, usedQ, hc⟩ := hi
  obtain ⟨heq, hdesc, hviews, hinside⟩ := hr
  have hlock : s'.vdisk_lock = s.vdisk_lock := by rw [heq]
  have hdisk : s'.disk = { s.disk with desc := s'.disk.desc } := by
    conv_lhs => rw [heq]
  refine ⟨by rw [hlock, hinside]; exact hl, availQ, usedQ, ?_⟩
  rw [hviews, hdisk]
  exact hc.roll hdesc

variable (hs : procStep s p = some (e, s'))
include hs

theorem Inv.alloc {c : Call} (hpc : s.proc p = .alloc c) : StepOk tr s e s' := by
  have hh : (s.proc p).holds = true := by rw [hpc]; rfl
  unfold procStep at hs
  simp only [hpc] at hs
  rcases s.alloc3_desc_cases with ⟨idx, s1, ha, hnd, hlt, hs1⟩ | ⟨s1, ha, hr⟩
  · simp only [ha] at hs
    injection hs with hs
    injection hs with he hs
    subst he
    obtain ⟨hl, availQ, usedQ, hc⟩ := hi
    have hpv : s.views p = .waiting c := by unfold views; rw [hpc]; rfl
    have hcore := hc.format (j := ⟨c, idx 0, idx 1, idx 2⟩) hpv
      (fun q k hk => by
        have hq := building_unique hl hh hk
        rw [hq, hpv] at hk
        cases hk) hnd hlt
    have hdisk : s'.disk = Disk.format { s.disk with
        free := fun i => if i ∈ [idx 0, idx 1, idx 2] then false else s.disk.free i }
        ⟨c, idx 0, idx 1, idx 2⟩ := by
      rw [← hs, hs1]
      rfl
    refine ⟨⟨?_, availQ, usedQ, ?_⟩, by simp, ?_, by simp⟩
    · rw [← hs, hs1]
      show Guards id s.vdisk_lock (s.goto p (.publish ⟨c, idx 0, idx 1, idx 2⟩)).inside
      rw [inside_goto]
      exact hl.keep hh.symm
    · rw [hdisk]
      have hviews : s'.views = update s.views p (.building ⟨c, idx 0, idx 1, idx 2⟩) := by
        rw [← hs, hs1]
        exact s.views_goto p (.publish ⟨c, idx 0, idx 1, idx 2⟩)
      rw [hviews]
      exact hcore.mono rfl
    · intro x hx
      -- both rings stand for the same queue
      obtain ⟨i, hi, rfl⟩ := hx
      rw [← hc.avail.length_eq NUM_lt_IDX] at hi
      have h1 := hc.avail.cell i hi
      have h2 := hcore.avail.cell i hi
      rw [h1] at h2
      rw [hdisk]
      exact (Option.some.inj h2).symm
  · simp only [ha] at hs
    injection hs with hs
    injection hs with he hs
    subst he
    have hview : (s1.proc p).view = .waiting c := by
      have := congrFun hr.2.2.1 p
      unfold views at this
      rw [this, hpc]
      rfl
    have hin : (s1.proc p).holds = true := by
      have := congrFun hr.2.2.2 (.inl p)
      simp only [inside, Sum.elim_inl] at this
      rw [this, hh]
    rw [← hs]
    refine StepOk.quiet ((hi.rolled hr).release hin hview.symm rfl) ?_
    show s1.disk.availRing = s.disk.availRing
    rw [hr.1]

theorem Inv.publish (hpc : s.proc p = .publish j) : StepOk tr s e s' := by
  have hh : (s.proc p).holds = true := by rw [hpc]; rfl
  unfold procStep at hs
  simp only [hpc] at hs
  cases hs
  obtain ⟨hl, availQ, usedQ, hc⟩ := hi
  have hpv : s.views p = .building j := by unfold views; rw [hpc]; rfl
  refine ⟨⟨?_, availQ ++ [⟨j.i0, s.disk.made⟩], usedQ, ?_⟩, by simp, fun x _ => rfl, by simp⟩
  · show Guards id s.vdisk_lock (s.goto p (.wait j s.disk.made)).inside
    rw [inside_goto]
    exact hl.keep hh.symm
  · show Core _ (s.goto p (.wait j s.disk.made)).views s.disk.publish _ _
    rw [views_goto]
    exact hc.publish hpv fun q k hk => building_unique hl hh hk

theorem Inv.wait (hpc : s.proc p = .wait j num) : StepOk tr s e s' := by
  have hh : (s.proc p).holds = true := by rw [hpc]; rfl
  unfold procStep at hs
  simp only [hpc] at hs
  split at hs
  · cases hs
    exact StepOk.quiet (hi.release hh (by rw [hpc]; rfl) rfl) rfl
  · next hb =>
    have hb : s.disk.bdisk j.call.b = false := by simpa using hb
    obtain ⟨hl, availQ, usedQ, hc⟩ := hi
    have hpv : s.views p = .flying j num := by unfold State.views; rw [hpc]; rfl
    have hpj : (s.views p).job = some j := by rw [hpv]; rfl
    have hf := hc.formatted p j hpj
    obtain ⟨hnd, hlt⟩ := hc.chain p j hpj
    -- the chain in memory is the one that was allocated
    have hfree := State.free_chain_ok (s := { s with disk := { s.disk with
        info := update s.disk.info j.i0 ⟨none, (s.disk.info j.i0).status⟩ } }) hnd hlt
      hf.flags0 (congrArg Desc.next hf.desc0) hf.flags1 (congrArg Desc.next hf.desc1) hf.flags2 6
    rw [show NUM + 1 = 6 + 3 from rfl] at hs
    simp only [hfree] at hs
    cases hs
    refine ⟨⟨?_, availQ, usedQ, ?_⟩, ?_, fun x _ => rfl, by simp⟩
    · show Guards id none (State.inside (State.goto _ p .out))
      rw [State.inside_goto, State.freed_inside]
      exact hl.release hh rfl
    · show Core _ (State.views (State.goto _ p .out)) _ availQ usedQ
      rw [State.views_goto, State.freed_views]
      exact (hc.leave hpv hb).mono rfl
    · intro q c n he
      injection he with hq hcall hn
      subst hq hcall hn
      exact ⟨hc.submitted p j num hpv, j.taken num, hc.finished p j num hpv hb, rfl, rfl, rfl⟩

theorem Inv.procStep : StepOk tr s e s' := by
  cases hpc : s.proc p with
  | out | sleepFree c | sleepBuf j num =>
    unfold VirtioDisk.procStep at hs
    simp only [hpc] at hs
    cases hs
  | acquire c | wokenFree c | wokenBuf j num =>
    unfold VirtioDisk.procStep at hs
    simp only [hpc] at hs
    exact hi.acquire (by rw [hpc]; rfl) rfl hs
  | alloc c => exact hi.alloc hs hpc
  | publish j => exact hi.publish hs hpc
  | wait j num => exact hi.wait hs hpc

end

theorem inside_intr (s : State N H) (h : Fin H) (b : Bool) :
    Sum.elim (fun p => (s.proc p).holds) (update s.intr h b) = update s.inside (.inr h) b := by
  funext o
  cases o with
  | inl q => simp [inside]
  | inr g => simp only [inside, update_apply, Sum.elim_inr, Sum.inr.injEq]

theorem Inv.intrStep (hi : Inv tr s) (hs : intrStep s h = some (e, s')) : StepOk tr s e s' := by
  obtain ⟨hl, availQ, usedQ, hc⟩ := hi
  unfold VirtioDisk.intrStep at hs
  split at hs
  · next hin =>
    split at hs
    · cases hs
      refine StepOk.quiet ⟨?_, availQ, usedQ, hc.mono rfl⟩ rfl
      show Guards id none (Sum.elim (fun p => (s.proc p).holds) (update s.intr h false))
      rw [inside_intr]
      exact hl.release hin rfl
    · next hne =>
      -- the entry is that of a request in flight
      obtain ⟨f, usedQ', p, j, rfl, hf, hv, h0, hinfo⟩ := hc.read hne
      simp only [hf, hinfo, ne_eq, not_true_eq_false, if_false] at hs
      cases hs
      refine StepOk.quiet ⟨?_, availQ, usedQ', ?_⟩ rfl
      · have hinside : inside { s with proc := fun p => (s.proc p).wakeBuf j.call.b } =
            s.inside := by
          funext o
          cases o with
          | inl q => simp [inside]
          | inr g => rfl
        show Guards id s.vdisk_lock (inside { s with proc := fun p => (s.proc p).wakeBuf j.call.b })
        rw [hinside]
        exact hl
      · have hviews : (fun q => ((s.proc q).wakeBuf j.call.b).view) = s.views := by
          funext q
          simp [views]
        show Core _ (fun q => ((s.proc q).wakeBuf j.call.b).view) _ availQ usedQ'
        rw [hviews]
        exact (hc.handle hv h0).mono rfl
  · split at hs
    · next hnone =>
      cases hs
      refine StepOk.quiet ⟨?_, availQ, usedQ, hc.mono rfl⟩ rfl
      show Guards id (some (Sum.inr h))
        (Sum.elim (fun p => (s.proc p).holds) (update s.intr h true))
      rw [inside_intr]
      exact hl.acquire hnone rfl
    · cases hs

theorem Inv.exec {a : Action N H} (hi : Inv tr s) (hs : exec a s = some (e, s')) :
    StepOk tr s e s' := by
  cases a with
  | virtio_disk_rw p c =>
    obtain ⟨hen, hs⟩ := Option.ite_none_right_eq_some.mp hs
    cases hs
    obtain ⟨hl, availQ, usedQ, hc⟩ := hi
    obtain ⟨hout, hfresh⟩ := hen
    refine StepOk.quiet ⟨?_, availQ, usedQ, ?_⟩ rfl
    · rw [inside_goto]
      exact hl.keep (by simp [inside, hout, holds])
    · rw [views_goto]
      refine (hc.enter ?_ ?_).mono rfl
      · unfold views; rw [hout]; rfl
      · intro q f hf
        exact hfresh q f (by rw [← view_call]; exact hf)
  | run p => exact hi.procStep hs
  | kill p =>
    simp only [VirtioDisk.exec] at hs
    cases hs
    exact StepOk.quiet (hi.goto (by simp) (by simp)) rfl
  | virtio_disk_intr h => exact hi.intrStep hs
  | take =>
    obtain ⟨d, hd, heq⟩ := Option.map_eq_some_iff.mp hs
    cases heq
    obtain ⟨hl, availQ, usedQ, hc⟩ := hi
    obtain ⟨f, availQ', -, hc'⟩ := hc.take hd
    refine StepOk.quiet ⟨hl, availQ', usedQ, hc'.mono rfl⟩ ?_
    obtain ⟨-, hd⟩ := Option.ite_none_left_eq_some.mp hd
    injection hd with hd
    rw [← hd]
  | complete n =>
    obtain ⟨⟨t, d⟩, hd, heq⟩ := Option.map_eq_some_iff.mp hs
    cases heq
    obtain ⟨hl, availQ, usedQ, hc⟩ := hi
    refine ⟨⟨hl, availQ, _, hc.complete hd⟩, by simp, ?_, by simp⟩
    intro x _
    unfold Disk.complete at hd
    split at hd
    · cases hd
    · injection hd with hd
      injection hd with ht hd
      rw [← hd]

theorem inv_init : Inv [] (init N H) := by
  refine ⟨?_, [], [], ?_⟩
  · intro o
    cases o <;> simp [init, inside, holds]
  · have hviews : (init N H).views = fun _ => .out := rfl
    have hpos : 0 < IDX := by decide
    rw [hviews]
    constructor
    case avail => exact Holds.empty hpos
    case used => exact Holds.empty hpos
    case numbered => rfl
    all_goals simp [View.call, View.job, init, Disk.pending]

theorem inv_trace (h : Trace (system N H) tr s) : Inv tr s := by
  refine h.invariant ?_ ?_
  · intro s hs
    rw [show s = init N H from hs]
    exact inv_init
  · rintro tr s l s' hi ⟨a, ha⟩
    exact (hi.exec ha).inv

/-- Each descriptor is free or in the chain of exactly one process. -/
theorem Inv.descriptor (hi : Inv tr s) (i : Nat) :
    (s.disk.free i = true ∧ ∀ p, i ∉ (s.proc p).chain) ∨
      (s.disk.free i = false ∧ ∃! p, i ∈ (s.proc p).chain) := by
  obtain ⟨-, availQ, usedQ, hc⟩ := hi
  have hmem : ∀ {p}, i ∈ (s.proc p).chain → ∃ j, (s.views p).job = some j ∧ i ∈ j.idx := by
    intro p hp
    rw [chain_eq] at hp
    cases hj : (s.proc p).view.job with
    | none => rw [hj] at hp; cases hp
    | some j => rw [hj] at hp; exact ⟨j, hj, hp⟩
  cases hf : s.disk.free i with
  | true =>
    refine .inl ⟨rfl, ?_⟩
    intro p hp
    obtain ⟨j, hj, hij⟩ := hmem hp
    have := ((hc.chain p j hj).2 i hij).2
    rw [hf] at this
    cases this
  | false =>
    obtain ⟨p, j, hj, hij⟩ := hc.owned i hf
    refine .inr ⟨rfl, p, ?_, ?_⟩
    · show i ∈ (s.proc p).chain
      rw [chain_eq, show (s.proc p).view.job = some j from hj]
      exact hij
    · intro q hq
      obtain ⟨k, hk, hik⟩ := hmem hq
      exact hc.apart q p k j i hk hj hik hij

theorem Inv.chain (hi : Inv tr s) (p : Fin N) :
    (s.proc p).chain = [] ∨
      ((s.proc p).chain.length = 3 ∧ (s.proc p).chain.Nodup ∧ ∀ i ∈ (s.proc p).chain, i < NUM) := by
  obtain ⟨-, availQ, usedQ, hc⟩ := hi
  rw [chain_eq]
  cases hj : (s.proc p).view.job with
  | none => exact .inl rfl
  | some j =>
    obtain ⟨hnd, hlt⟩ := hc.chain p j hj
    exact .inr ⟨rfl, hnd, fun i hi => (hlt i hi).1⟩

/-- `p` has made the request `num` of the call and not returned. -/
def PC.waits (pc : PC) (j : Job) (num : Nat) : Prop :=
  pc = .wait j num ∨ pc = .sleepBuf j num ∨ pc = .wokenBuf j num

theorem PC.waits_of_view {pc : PC} {num : Nat} (h : pc.view = .flying j num) : pc.waits j num := by
  cases pc with
  | wait k n => cases h; exact .inl rfl
  | sleepBuf k n => cases h; exact .inr (.inl rfl)
  | wokenBuf k n => cases h; exact .inr (.inr rfl)
  | out | acquire c | alloc c | sleepFree c | wokenFree c | publish k => cases h

/-- The protocol of driver and device, in every state of every run: a
    descriptor is free or in one chain; requests are numbered apart; the entry
    the handler reads next belongs to a request that its caller still waits
    for, with the caller's buffer in `info`; and in every step, a call returns
    after its own request was completed, no entry of the avail ring that the
    device has yet to take is changed, and nothing panics. -/
theorem virtio_disk_protocol (h : Trace (system N H) tr s) :
    (∀ i, i < NUM → (s.disk.free i = true ∧ ∀ p, i ∉ (s.proc p).chain) ∨
      (s.disk.free i = false ∧ ∃! p, i ∈ (s.proc p).chain)) ∧
    (∀ p, (s.proc p).chain = [] ∨
      ((s.proc p).chain.length = 3 ∧ (s.proc p).chain.Nodup ∧ ∀ i ∈ (s.proc p).chain, i < NUM)) ∧
    tr.filterMap Event.submission = List.range s.disk.made ∧
    (s.disk.used_idx ≠ s.disk.usedIdx →
      let entry := s.disk.usedRing (s.disk.used_idx % NUM)
      ∃ p j, (s.proc p).waits j entry.num ∧ j.i0 = entry.head ∧
        s.disk.info entry.head = ⟨some j.call.b, 0⟩) ∧
    ∀ a e s', exec a s = some (e, s') →
      (∀ p c num, e = .returned p c num → .submitted p num ∈ tr ∧ Completed tr c num) ∧
      (∀ x, s.disk.untaken x → s'.disk.availRing x = s.disk.availRing x) ∧
      ∀ msg, e ≠ .panic msg := by
  have hi := inv_trace h
  refine ⟨fun i _ => hi.descriptor i, hi.chain, ?_, ?_, ?_⟩
  · obtain ⟨-, availQ, usedQ, hc⟩ := hi
    exact hc.numbered
  · intro hne
    obtain ⟨-, availQ, usedQ, hc⟩ := hi
    obtain ⟨e, usedQ', p, j, -, he, hv, h0, hinfo⟩ := hc.read hne
    rw [he]
    exact ⟨p, j, waits_of_view hv, h0, hinfo⟩
  · intro a e s' hs
    have hstep := hi.exec hs
    exact ⟨hstep.returned, hstep.untaken, hstep.noPanic⟩

end Runs

/-- Three callers: the third finds two descriptors, gives them back and
    sleeps; the device completes the second request first. -/
def p0 : Fin 3 := ⟨0, Nat.zero_lt_succ 2⟩

def p1 : Fin 3 := ⟨1, Nat.one_lt_succ_succ 1⟩

def p2 : Fin 3 := ⟨2, Nat.lt_add_one 2⟩

def h0 : Fin 1 := ⟨0, Nat.one_pos⟩

def readFive : Call := ⟨1, 5, false⟩

def writeSix : Call := ⟨2, 6, true⟩

def readSeven : Call := ⟨3, 7, false⟩

def outOfOrder : List (Action 3 1) :=
  [.virtio_disk_rw p0 readFive, .run p0, .run p0, .run p0, .run p0,
   .virtio_disk_rw p1 writeSix, .run p1, .run p1, .run p1, .run p1,
   .virtio_disk_rw p2 readSeven, .run p2, .run p2,
   .take, .take, .complete 1,
   .virtio_disk_intr h0, .virtio_disk_intr h0, .virtio_disk_intr h0, .run p1]

theorem virtio_disk_protocol_outOfOrder :
    ∃ tr s, Trace (system 3 1) tr s ∧ s.proc p0 = .sleepBuf ⟨readFive, 0, 1, 2⟩ 0 ∧
      s.proc p2 = .sleepFree readSeven ∧ Completed tr writeSix 1 := by
  obtain ⟨tr, s, htr, ht⟩ := exists_trace_of_replay exec outOfOrder
    (fun _ s => (s.proc p0 == .sleepBuf ⟨readFive, 0, 1, 2⟩ 0) &&
      (s.proc p2 == .sleepFree readSeven) &&
    ((exec (.run p1) s).map Prod.fst == some (.returned p1 writeSix 1)))
    (initial_init (N := 3) (H := 1)) (by decide +kernel)
  simp only [Bool.and_eq_true, beq_iff_eq] at ht
  obtain ⟨⟨hp0, hp2⟩, hret⟩ := ht
  obtain ⟨⟨e, s'⟩, hs, he⟩ := Option.map_eq_some_iff.mp hret
  have hstep := (virtio_disk_protocol htr).2.2.2.2 (.run p1) e s' hs
  exact ⟨tr, s, htr, hp0, hp2, (hstep.1 p1 writeSix 1 he).2⟩

end NoviceKernel.VirtioDisk
