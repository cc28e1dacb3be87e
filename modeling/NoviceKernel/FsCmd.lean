import NoviceKernel.FsPath
import NoviceKernel.Lib.Program

/-! # What processes share below the file system calls

    The file system, the sleep-locks of the inode table, the file table, the
    pages of the pipes, and every process's open files and working directory.

    A command is what a process does in one step: a section under a spin-lock,
    or an operation on an inode whose sleep-lock the process holds.  A command
    that has to wait for a sleep-lock stops with `Stop.sleep` and can be tried
    again.  The log below makes every call a transaction (`begin_op`, `end_op`);
    here these two do nothing. -/

namespace NoviceKernel.Sys

open FS Program Function

/-! ## Constants (`param.h`, `fcntl.h`) -/

/-- Open files per process. -/
def NOFILE : Nat := 16

/-- Open files per system. -/
def NFILE : Nat := 100

/-- Maximum major device number. -/
def NDEV : Nat := 10

abbrev Pid := Fin NPROC

/-! ## State -/

inductive FileType where
  | FD_NONE
  | FD_PIPE
  | FD_INODE
  | FD_DEVICE
  deriving DecidableEq

/-- `struct file`. -/
structure File where
  type : FileType
  ref : Nat
  readable : Bool
  writable : Bool
  /-- The page of the pipe. -/
  pipe : Nat
  ip : Fin NINODE
  off : Nat
  major : Nat

/-- The assignments of `sys_open` to a new file; `dev` is the major number of a
    device. -/
def File.setUp (x : File) (ip : Fin NINODE) (dev : Option Nat) (readable writable : Bool) : File :=
  match dev with
  | some major => { x with type := .FD_DEVICE, major := major, ip := ip, readable := readable,
                           writable := writable }
  | none =>
    { x with type := .FD_INODE, off := 0, ip := ip, readable := readable, writable := writable }

/-- The assignments of `pipealloc` to a new file. -/
def File.setPipe (x : File) (pi : Nat) (writable : Bool) : File :=
  { x with type := .FD_PIPE, readable := !writable, writable := writable, pipe := pi }

/-- `struct pipe`: which ends are open. -/
structure PipeEnds where
  readopen : Bool
  writeopen : Bool
  deriving DecidableEq

/-- Whether an end is open. -/
def PipeEnds.isOpen (e : PipeEnds) (writable : Bool) : Bool :=
  if writable then e.writeopen else e.readopen

/-- Close one end. -/
def PipeEnds.close (e : PipeEnds) (writable : Bool) : PipeEnds :=
  if writable then { e with writeopen := false } else { e with readopen := false }

/-- The states of a process slot that matter here: `EMBRYO` is a process that
    `fork` is setting up, `ALIVE` stands for `RUNNABLE`, `RUNNING` and
    `SLEEPING`. -/
inductive ProcState where
  | UNUSED
  | EMBRYO
  | ALIVE
  | ZOMBIE
  deriving DecidableEq

/-- `struct proc`: what concerns files. -/
structure Proc where
  state : ProcState
  cwd : Option (Fin NINODE)
  ofile : Fin NOFILE → Option (Fin NFILE)

structure Kernel where
  fs : Fs
  /-- Who holds the sleep-lock of an inode. -/
  lock : Fin NINODE → Option Pid
  ftable : Fin NFILE → File
  /-- The pages that are pipes. -/
  pipe : Nat → Option PipeEnds
  proc : Pid → Proc

/-! ## Commands -/

inductive Cmd where
  | panic (msg : String)
  | begin_op
  | end_op
  -- inodes
  | iget (inum : Nat)
  | idup (ip : Fin NINODE)
  | ilock (ip : Fin NINODE)
  | iunlock (ip : Fin NINODE)
  | iputLast (ip : Fin NINODE)
  | invalidate (ip : Fin NINODE)
  | releasesleep (ip : Fin NINODE)
  | unref (ip : Fin NINODE)
  | ialloc (type inum : Nat)
  | inum (ip : Fin NINODE)
  | attr (ip : Fin NINODE)
  | size (ip : Fin NINODE)
  | modify (ip : Fin NINODE) (f : Attr → Attr)
  | iupdate (ip : Fin NINODE)
  | itrunc (ip : Fin NINODE)
  | readi (cp : Nat → Nat → Bool) (ip : Fin NINODE) (dst off n : Nat)
  | writei (user : Bool) (cp : Copyin) (ip : Fin NINODE) (src off n : Nat)
  -- files
  | filealloc
  | file (f : Fin NFILE)
  | setFile (f : Fin NFILE) (ip : Fin NINODE) (dev : Option Nat) (readable writable : Bool)
  | advance (f : Fin NFILE) (r : Nat)
  | filedup (f : Fin NFILE)
  | filedrop (f : Fin NFILE)
  -- pipes
  | kalloc (page : Option Nat)
  | setPipe (f : Fin NFILE) (pi : Nat) (writable : Bool)
  | pipeclose (pi : Nat) (writable : Bool)
  | kfree (pi : Nat)
  -- the process
  | ofile (fd : Fin NOFILE)
  | fdalloc (f : Fin NFILE)
  | fdclear (fd : Fin NOFILE)
  | cwd
  | setCwd (ip : Option (Fin NINODE))
  | allocproc
  | freeproc (np : Pid)
  | giveFile (np : Pid) (fd : Fin NOFILE) (f : Fin NFILE)
  | giveCwd (np : Pid) (ip : Fin NINODE)
  | runnable (np : Pid)
  | zombie
  | reap (np : Pid)

namespace Cmd

/-- What a command returns. -/
abbrev Ret : Cmd → Type
  | panic _ => Empty
  | iget _ => Fin NINODE
  | iputLast _ => Bool
  | ialloc _ _ => Bool
  | inum _ => Nat
  | attr _ => Attr
  | size _ => Nat
  | readi _ _ _ _ _ => Int × Bytes
  | writei _ _ _ _ _ _ => Int
  | filealloc => Option (Fin NFILE)
  | file _ => File
  | filedrop _ => Option File
  | kalloc _ => Option Nat
  | pipeclose _ _ => Bool
  | ofile _ => Option (Fin NFILE)
  | fdalloc _ => Option (Fin NOFILE)
  | cwd => Fin NINODE
  | allocproc => Option Pid
  | _ => Unit

end Cmd

def sig : Sig := ⟨Cmd, Cmd.Ret⟩

abbrev SysM := EStateM Stop Kernel

/-- An operation of the file system. -/
def onFs {α : Type} (x : FsM α) : SysM α := fun s =>
  match x s.fs with
  | .ok a fs => .ok a { s with fs := fs }
  | .error e fs => .error e { s with fs := fs }

def setLock (ip : Fin NINODE) (holder : Option Pid) : SysM Unit :=
  modify fun s => { s with lock := update s.lock ip holder }

def setFtable (f : Fin NFILE) (x : File) : SysM Unit :=
  modify fun s => { s with ftable := update s.ftable f x }

def setPipe (pi : Nat) (x : Option PipeEnds) : SysM Unit :=
  modify fun s => { s with pipe := update s.pipe pi x }

def setProc (p : Pid) (x : Proc) : SysM Unit :=
  modify fun s => { s with proc := update s.proc p x }

/-- `acquiresleep`. -/
def acquiresleep (p : Pid) (ip : Fin NINODE) : SysM Unit := do
  match (← get).lock ip with
  | some _ => throw .sleep
  | none => setLock ip (some p)

section Exec

variable (sb : Superblock) (p : Pid)

/-- `ilock` by process `p`. -/
def ilockBy (ip : Fin NINODE) : SysM Unit := do
  if ((← get).fs.itable ip).ref < 1 then throw (.panic "ilock")
  else
    acquiresleep p ip
    onFs (FS.ilock sb ip)

def iunlockBy (ip : Fin NINODE) : SysM Unit := do
  let s ← get
  if s.lock ip ≠ some p ∨ (s.fs.itable ip).ref < 1 then throw (.panic "iunlock")
  else setLock ip none

/-- The first section of `iput` under `itable.lock`: the lock of an inode to be
    freed is taken, and otherwise the reference is dropped. -/
def iputLastBy (ip : Fin NINODE) : SysM Bool := do
  let x := (← get).fs.itable ip
  if x.ref = 1 ∧ x.valid = true ∧ x.din.nlink = 0 then
    acquiresleep p ip
    return true
  else
    onFs (FS.unref ip)
    return false

/-- One round of the loop of `ialloc`: take inode `inum` if it is free. -/
def iallocAt (type inum : Nat) : FsM Bool := do
  let d ← FS.bread (IBLOCK sb inum)
  if d.load (ioff inum) 2 = 0 then
    writeBlock (IBLOCK sb inum) ((d.clear (ioff inum) DINODE).store (ioff inum) 2 type)
    return true
  else return false

def fileallocFree : SysM (Option (Fin NFILE)) := do
  let s ← get
  match (List.finRange NFILE).find? (fun f => (s.ftable f).ref = 0) with
  | some f =>
    setFtable f { s.ftable f with ref := 1 }
    return some f
  | none => return none

def filedupRef (f : Fin NFILE) : SysM Unit := do
  let x := (← get).ftable f
  if x.ref < 1 then throw (.panic "filedup")
  else setFtable f { x with ref := x.ref + 1 }

/-- The section of `fileclose` under `ftable.lock`; returns `ff` if this was
    the last reference. -/
def filedropRef (f : Fin NFILE) : SysM (Option File) := do
  let x := (← get).ftable f
  if x.ref < 1 then throw (.panic "fileclose")
  else if 1 < x.ref then
    setFtable f { x with ref := x.ref - 1 }
    return none
  else
    setFtable f { x with ref := 0, type := .FD_NONE }
    return some x

/-- `kalloc` for a pipe and the assignments to its fields.  Which page comes from
    the free list is left open, but no page that is in use comes from there. -/
def kallocPipe : Option Nat → SysM (Option Nat)
  | none => return none
  | some pi => do
    match (← get).pipe pi with
    | some _ => throw .sleep
    | none =>
      setPipe pi (some ⟨true, true⟩)
      return some pi

/-- The section of `pipeclose` under `pi->lock`; returns whether both ends are
    closed.  A page that is no pipe any more cannot be used. -/
def pipecloseEnd (pi : Nat) (writable : Bool) : SysM Bool := do
  match (← get).pipe pi with
  | none => throw (.panic "kerneltrap")
  | some e =>
    setPipe pi (some (e.close writable))
    return e.close writable = ⟨false, false⟩

def fdallocFree (f : Fin NFILE) : SysM (Option (Fin NOFILE)) := do
  let x := (← get).proc p
  match (List.finRange NOFILE).find? (fun fd => x.ofile fd = none) with
  | some fd =>
    setProc p { x with ofile := update x.ofile fd (some f) }
    return some fd
  | none => return none

/-- `myproc()->cwd`; using a null pointer traps. -/
def cwdOf : SysM (Fin NINODE) := do
  match ((← get).proc p).cwd with
  | some ip => return ip
  | none => throw (.panic "kerneltrap")

def allocprocFree : SysM (Option Pid) := do
  let s ← get
  match (List.finRange NPROC).find? (fun q => (s.proc q).state = .UNUSED) with
  | some q =>
    setProc q { s.proc q with state := .EMBRYO }
    return some q
  | none => return none

/-- Change the slot of process `q`. -/
def modifyProc (q : Pid) (f : Proc → Proc) : SysM Unit :=
  modify fun s => { s with proc := update s.proc q (f (s.proc q)) }

/-- The step of process `p` that a command is. -/
def exec : (c : Cmd) → SysM c.Ret
  | .panic msg => throw (.panic msg)
  | .begin_op => pure ()
  | .end_op => pure ()
  | .iget inum => onFs (FS.iget inum)
  | .idup ip => onFs (FS.idup ip)
  | .ilock ip => ilockBy sb p ip
  | .iunlock ip => iunlockBy p ip
  | .iputLast ip => iputLastBy p ip
  | .invalidate ip => onFs (do let s ← get; setInode ip { s.itable ip with valid := false })
  | .releasesleep ip => setLock ip none
  | .unref ip => onFs (FS.unref ip)
  | .ialloc type inum => onFs (iallocAt sb type inum)
  | .inum ip => do return ((← get).fs.itable ip).inum
  | .attr ip => do return ((← get).fs.itable ip).din.attr
  | .size ip => do return ((← get).fs.itable ip).din.size
  | .modify ip f => onFs (modifyDin ip fun x => x.setAttr (f x.attr))
  | .iupdate ip => onFs (FS.iupdate sb ip)
  | .itrunc ip => onFs (FS.itrunc sb ip)
  | .readi cp ip dst off n => onFs (FS.readi sb cp ip dst off n)
  | .writei _ cp ip src off n => onFs (FS.writei sb cp ip src off n)
  | .filealloc => fileallocFree
  | .file f => do return (← get).ftable f
  | .setFile f ip dev readable writable => do
    setFtable f (((← get).ftable f).setUp ip dev readable writable)
  | .advance f r => do
    let x := (← get).ftable f
    setFtable f { x with off := (x.off + r) % 2 ^ 32 }
  | .filedup f => filedupRef f
  | .filedrop f => filedropRef f
  | .kalloc page => kallocPipe page
  | .setPipe f pi writable => do setFtable f (((← get).ftable f).setPipe pi writable)
  | .pipeclose pi writable => pipecloseEnd pi writable
  | .kfree pi => setPipe pi none
  | .ofile fd => do return ((← get).proc p).ofile fd
  | .fdalloc f => fdallocFree p f
  | .fdclear fd => modifyProc p fun x => { x with ofile := update x.ofile fd none }
  | .cwd => cwdOf p
  | .setCwd ip => modifyProc p fun x => { x with cwd := ip }
  | .allocproc => allocprocFree
  | .freeproc np => modifyProc np fun x => { x with state := .UNUSED }
  | .giveFile np fd f => modifyProc np fun x => { x with ofile := update x.ofile fd (some f) }
  | .giveCwd np ip => modifyProc np fun x => { x with cwd := some ip }
  | .runnable np => modifyProc np fun x => { x with state := .ALIVE }
  | .zombie => modifyProc p fun x => { x with state := .ZOMBIE }
  | .reap np => modifyProc np fun x => if x.state = .ZOMBIE then { x with state := .UNUSED } else x

end Exec

end NoviceKernel.Sys
