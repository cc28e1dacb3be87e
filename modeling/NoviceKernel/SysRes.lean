import NoviceKernel.FsAbs
import NoviceKernel.FsDir
import NoviceKernel.Lib.Count

/-! # What a process holds during a call

    A process holds references to inodes, to files and to the ends of pipes, the
    locks of inodes, and what it has set up of a child.  The commands need some of these resources
    and change them (`spec`); what others do cannot change them.

    `Holds` ties the resources of all processes to the abstract kernel: the
    reference count of an inode is the number of files on it plus the references
    that processes hold, an end of a pipe is open as long as there is a file or a
    reference for it, and a lock belongs to the process that holds it.

    All this does not depend on what is on the disk.  If the proposition `t`
    holds, the disk is followed as well: an inode that nobody has locked is
    stored as it is in memory, and the entries of directories are inode numbers
    of the disk. -/

namespace NoviceKernel.Sys

open FS Hoare Program Count Function

/-! ## Resources -/

/-- What the holder of the lock of an inode knows about the entry: its fields,
    whether they are valid and stored, and that there are no blocks. -/
structure Hold where
  attr : Attr
  valid : Bool
  clean : Bool
  bare : Bool

/-- An inode as `ilock` leaves it. -/
def Hold.of (m : Attr) : Hold := ⟨m, true, true, false⟩

/-- A process that is being set up. -/
structure Child where
  np : Pid
  cwd : Option (Fin NINODE)
  ofile : Fin NOFILE → Option (Fin NFILE)

/-- The inode that a file is on. -/
def File.inode (x : File) : Option (Fin NINODE) :=
  match x.type with
  | .FD_INODE | .FD_DEVICE => some x.ip
  | .FD_PIPE | .FD_NONE => none

/-- The end of a pipe that a file is. -/
def File.pipeEnd (x : File) : Option (Nat × Bool) :=
  match x.type with
  | .FD_PIPE => some (x.pipe, x.writable)
  | .FD_INODE | .FD_DEVICE | .FD_NONE => none

/-- References of a working directory. -/
def cwdRefs (cwd : Option (Fin NINODE)) (ip : Fin NINODE) : Nat := if cwd = some ip then 1 else 0

/-- Descriptors of the file `f`. -/
def slots (ofile : Fin NOFILE → Option (Fin NFILE)) (f : Fin NFILE) : Nat :=
  count ofile (· = some f)

/-- What a process holds. -/
structure Res where
  alive : Bool
  /-- References to inodes, that of the working directory included. -/
  refs : Fin NINODE → Nat
  locks : Fin NINODE → Option Hold
  /-- References to files, those of the descriptors included. -/
  files : Fin NFILE → Nat
  /-- The inode of a file that the process has looked at. -/
  seen : Fin NFILE → Option (Fin NINODE)
  /-- Files that are not set up yet. -/
  fresh : Fin NFILE → Bool
  /-- References to ends of pipes for which there is no file. -/
  ends : Nat × Bool → Nat
  /-- A pipe that has to be freed. -/
  doomed : Option Nat
  cwd : Option (Fin NINODE)
  ofile : Fin NOFILE → Option (Fin NFILE)
  child : Option Child

namespace Res

/-- A slot without a process. -/
def dead : Res where
  alive := false
  refs := fun _ => 0
  locks := fun _ => none
  files := fun _ => 0
  seen := fun _ => none
  fresh := fun _ => false
  ends := fun _ => 0
  doomed := none
  cwd := none
  ofile := fun _ => none
  child := none

section

variable (r : Res)

def addRef (ip : Fin NINODE) : Res := { r with refs := update r.refs ip (r.refs ip + 1) }

def dropRef (ip : Fin NINODE) : Res := { r with refs := update r.refs ip (r.refs ip - 1) }

def addEnd (e : Nat × Bool) : Res := { r with ends := update r.ends e (r.ends e + 1) }

def dropEnd (e : Nat × Bool) : Res := { r with ends := update r.ends e (r.ends e - 1) }

/-- The reference that comes with a file. -/
def gain (x : File) : Res :=
  match x.type with
  | .FD_INODE | .FD_DEVICE => r.addRef x.ip
  | .FD_PIPE => r.addEnd (x.pipe, x.writable)
  | .FD_NONE => r

def setLock (ip : Fin NINODE) (h : Option Hold) : Res :=
  { r with locks := update r.locks ip h }

def addFile (f : Fin NFILE) : Res := { r with files := update r.files f (r.files f + 1) }

def dropFile (f : Fin NFILE) : Res :=
  { r with
    files := update r.files f (r.files f - 1)
    seen := update r.seen f none
    fresh := update r.fresh f false }

def see (f : Fin NFILE) : Option (Fin NINODE) → Res
  | some ip => { r with seen := update r.seen f (some ip) }
  | none => r

/-- The part that goes to a child. -/
def ofChild (ch : Child) : Res :=
  { dead with
    alive := true
    refs := cwdRefs ch.cwd
    files := slots ch.ofile
    cwd := ch.cwd
    ofile := ch.ofile }

/-- What the parent keeps. -/
def without (ch : Child) : Res :=
  { r with
    refs := fun ip => r.refs ip - cwdRefs ch.cwd ip
    files := fun f => r.files f - slots ch.ofile f
    seen := fun _ => none
    child := none }

/-- Something the process holds keeps the inode in the table. -/
def Backed (ip : Fin NINODE) : Prop := 0 < r.refs ip ∨ ∃ f, r.seen f = some ip

/-- Between calls a process holds its working directory and its descriptors. -/
structure Resting : Prop where
  alive : r.alive = true
  refs : r.refs = cwdRefs r.cwd
  files : r.files = slots r.ofile
  locks : r.locks = fun _ => none
  fresh : r.fresh = fun _ => false
  ends : r.ends = fun _ => 0
  doomed : r.doomed = none
  child : r.child = none

def Idle : Prop := r = dead ∨ r.Resting

end

section

variable {r : Res} {ip jp : Fin NINODE} {h h' : Option Hold}

@[simp] theorem locks_setLock_self : (r.setLock ip h).locks ip = h := update_self ..

@[simp] theorem locks_setLock_of_ne (hne : jp ≠ ip) : (r.setLock ip h).locks jp = r.locks jp :=
  update_of_ne hne ..

@[simp] theorem refs_addRef_self : (r.addRef ip).refs ip = r.refs ip + 1 := update_self ..

@[simp] theorem refs_addRef_of_ne (hne : jp ≠ ip) : (r.addRef ip).refs jp = r.refs jp :=
  update_of_ne hne ..

@[simp] theorem refs_dropRef_self : (r.dropRef ip).refs ip = r.refs ip - 1 := update_self ..

@[simp] theorem refs_dropRef_of_ne (hne : jp ≠ ip) : (r.dropRef ip).refs jp = r.refs jp :=
  update_of_ne hne ..

end

end Res

/-! ## Commands -/

/-- A write that keeps a directory in order: one entry. -/
def WritesEntry (sb : Superblock) (cp : Copyin) (src off n : Nat) : Prop :=
  Dirent.SIZE ∣ off ∧ n = Dirent.SIZE ∧ src < 2 ^ 64 ∧
    ∃ bytes, Delivers cp src n bytes ∧ (Dirent.load ((List.range n).map bytes)).inum < sb.ninodes

/-- What a command needs. -/
def Pre (sb : Superblock) (t : Prop) : Cmd → Res → Prop
  | .iget inum, _ => t → inum < sb.ninodes
  | .idup ip, r => 0 < r.refs ip
  | .ilock ip, r | .inum ip, r => r.Backed ip
  | .iunlock ip, r => ∃ h, r.locks ip = some h ∧ h.valid = true ∧ h.clean = true ∧ h.attr.type ≠ 0
  | .iputLast ip, r => 0 < r.refs ip ∧ (r.locks ip ≠ none → 1 < r.refs ip)
  | .invalidate ip, r => r.locks ip ≠ none
  | .releasesleep ip, r => ∃ h, r.locks ip = some h ∧ h.valid = false
  | .unref ip, r => 0 < r.refs ip ∧ r.locks ip = none
  | .ialloc type inum, _ => inum < sb.ninodes ∧ 0 < type ∧ type < 2 ^ 16
  | .attr ip, r | .size ip, r | .iupdate ip, r => ∃ h, r.locks ip = some h ∧ h.valid = true
  | .modify ip f, r =>
    ∃ h, r.locks ip = some h ∧ h.valid = true ∧ (InRange h.attr → InRange (f h.attr)) ∧
      ((f h.attr).type = h.attr.type ∨ (f h.attr).type = 0 ∧ h.bare = true)
  | .itrunc ip, r => ∃ h, r.locks ip = some h ∧ h.valid = true ∧ h.attr.type ≠ 0
  | .readi _ ip _ off n, r =>
    (∃ h, r.locks ip = some h ∧ h.valid = true) ∧ (t → off < 2 ^ 32 ∧ n < 2 ^ 32)
  | .writei user cp ip src off n, r => (t → off < 2 ^ 32 ∧ n < 2 ^ 32) ∧
      ∃ m, r.locks ip = some (.of m) ∧ m.type ≠ 0 ∧
        (t → user = false → n = Dirent.SIZE → m.type = T_DIR → WritesEntry sb cp src off n)
  | .file f, r | .advance f _, r => 0 < r.files f
  | .setFile f ip _ _ _, r => r.fresh f = true ∧ 0 < r.refs ip
  | .filedup f, r => 0 < r.files f ∧ r.fresh f = false
  | .filedrop f, r => 0 < r.files f ∧ ∀ ip, r.locks ip ≠ none → 0 < r.refs ip
  | .setPipe f pi writable, r => r.fresh f = true ∧ 0 < r.ends (pi, writable)
  | .pipeclose pi writable, r => 0 < r.ends (pi, writable) ∧ r.doomed = none
  | .kfree pi, r => r.doomed = some pi
  | .allocproc, r => r.child = none
  | .freeproc np, r =>
    ∃ ch, r.child = some ch ∧ ch.np = np ∧ ch.cwd = none ∧ ch.ofile = fun _ => none
  | .giveFile np _ _, r | .giveCwd np _, r => ∃ ch, r.child = some ch ∧ ch.np = np
  | .runnable np, r =>
    r.locks = (fun _ => none) ∧ r.fresh = (fun _ => false) ∧ ∃ ch, r.child = some ch ∧ ch.np = np ∧
      (∀ ip, cwdRefs ch.cwd ip ≤ r.refs ip) ∧ ∀ f, slots ch.ofile f ≤ r.files f
  | .zombie, r => r.Resting ∧ r.cwd = none ∧ r.ofile = fun _ => none
  | _, _ => True

/-- What a command does to the resources. -/
def Post (sb : Superblock) (t : Prop) : (c : Cmd) → Res → c.Ret → Res → Prop
  | .panic _, _, _, _ => False
  | .iget _, r, ip, r' => r' = r.addRef ip
  | .idup ip, r, _, r' => r' = r.addRef ip
  | .ilock ip, r, _, r' => r.locks ip = none ∧ ∃ m, m.type ≠ 0 ∧ r' = r.setLock ip (some (.of m))
  | .iunlock ip, r, _, r' | .releasesleep ip, r, _, r' => r' = r.setLock ip none
  | .iputLast ip, r, last, r' =>
      if last then r.locks ip = none ∧ ∃ m, m.type ≠ 0 ∧ r' = r.setLock ip (some (.of m))
      else r' = r.dropRef ip
  | .invalidate ip, r, _, r' =>
    ∀ h, r.locks ip = some h → r' = r.setLock ip (some { h with valid := false })
  | .unref ip, r, _, r' => r' = r.dropRef ip
  | .inum _, r, n, r' => (t → n < sb.ninodes) ∧ r' = r
  | .attr ip, r, m, r' => (∀ h, r.locks ip = some h → m = h.attr) ∧ r' = r
  | .size _, r, n, r' => (t → n ≤ MAXFILE * BSIZE) ∧ r' = r
  | .modify ip f, r, _, r' =>
      ∀ h, r.locks ip = some h →
        r' = r.setLock ip (some { h with attr := f h.attr, clean := false })
  | .iupdate ip, r, _, r' =>
    ∀ h, r.locks ip = some h → r' = r.setLock ip (some { h with clean := true })
  | .itrunc ip, r, _, r' =>
      ∀ h, r.locks ip = some h → r' = r.setLock ip (some { h with clean := true, bare := true })
  | .readi cp ip _ off n, r, b, r' => r' = r ∧ (t → ∀ h, r.locks ip = some h → h.attr.type = T_DIR →
      (cp = fun _ _ => true) → Dirent.SIZE ∣ off → n = Dirent.SIZE → b.1 = Dirent.SIZE →
      (Dirent.load b.2).inum < sb.ninodes)
  | .filealloc, r, b, r' =>
      match b with
      | some f => r.files f = 0 ∧ r' = { r.addFile f with fresh := update r.fresh f true }
      | none => r' = r
  | .file f, r, x, r' =>
    x.off < 2 ^ 32 ∧ (∀ ip, r.seen f = some ip → x.inode = some ip) ∧ r' = r.see f x.inode
  | .setFile f ip _ _ _, r, _, r' =>
    r' = { (r.dropRef ip).see f (some ip) with fresh := update r.fresh f false }
  | .filedup f, r, _, r' => r' = r.addFile f
  | .filedrop f, r, b, r' =>
      match b with
      | some ff => r' = (r.dropFile f).gain ff
      | none => r' = r.dropFile f
  | .kalloc _, r, b, r' =>
      match b with
      | some pi => r' = (r.addEnd (pi, false)).addEnd (pi, true)
      | none => r' = r
  | .setPipe f pi writable, r, _, r' =>
      r' = { r.dropEnd (pi, writable) with fresh := update r.fresh f false }
  | .pipeclose pi writable, r, last, r' =>
      r' = { r.dropEnd (pi, writable) with doomed := if last then some pi else none }
  | .kfree _, r, _, r' => r' = { r with doomed := none }
  | .ofile fd, r, f, r' => f = r.ofile fd ∧ r' = r
  | .fdalloc f, r, b, r' =>
      match b with
      | some fd => r.ofile fd = none ∧ r' = { r with ofile := update r.ofile fd (some f) }
      | none => r' = r
  | .fdclear fd, r, _, r' => r' = { r with ofile := update r.ofile fd none }
  | .cwd, r, ip, r' => r.cwd = some ip ∧ r' = r
  | .setCwd ip, r, _, r' => r' = { r with cwd := ip }
  | .allocproc, r, b, r' =>
      match b with
      | some np => r' = { r with child := some ⟨np, none, fun _ => none⟩ }
      | none => r' = r
  | .freeproc _, r, _, r' => r' = { r with child := none }
  | .giveFile np fd f, r, _, r' => ∀ ch, r.child = some ch →
      r' = { r with child := some ⟨np, ch.cwd, update ch.ofile fd (some f)⟩ }
  | .giveCwd np ip, r, _, r' =>
    ∀ ch, r.child = some ch → r' = { r with child := some ⟨np, some ip, ch.ofile⟩ }
  | .runnable _, r, _, r' => ∀ ch, r.child = some ch → r' = r.without ch
  | .zombie, _, _, r' => r' = .dead
  | _, r, _, r' => r' = r

/-- The commands as they change resources. -/
def spec (sb : Superblock) (t : Prop) : Spec sig Res where
  pre := fun c r => r.alive = true ∧ Pre sb t c r
  post := Post sb t
  live := fun r => r.alive = true
  pre_live := And.left

/-! ## Resources and the kernel -/

/-- The entry is stored as it is in memory. -/
def Stored (a : Abs) (ip : Fin NINODE) : Prop :=
  ∃ data, a.nodeOf ip = some ⟨(a.inode ip).attr, data⟩

/-- What the holder of a lock knows is right. -/
structure Knows (t : Prop) (a : Abs) (ip : Fin NINODE) (h : Hold) : Prop where
  valid : (a.inode ip).valid = h.valid
  attr : h.valid = true → (a.inode ip).attr = h.attr
  bare : t → h.bare = true → (a.inode ip).bare = true
  clean : t → h.valid = true → h.clean = true → h.attr.type ≠ 0 → Stored a ip

/-- A slot that belongs to no process, and to no child that is being set up. -/
def Spare (R : Pid → Res) (q : Pid) : Prop :=
  (R q).alive = false ∧ ∀ q' ch, (R q').child = some ch → ch.np ≠ q

/-- The processes and what they know of themselves and of their children. -/
structure Procs (proc : Pid → Proc) (R : Pid → Res) : Prop where
  alive : ∀ q, (proc q).state = .ALIVE → (R q).alive = true
  dead : ∀ q, (R q).alive = false → R q = .dead
  own : ∀ q, (R q).alive = true → proc q = ⟨.ALIVE, (R q).cwd, (R q).ofile⟩
  child : ∀ q ch, (R q).child = some ch → proc ch.np = ⟨.EMBRYO, ch.cwd, ch.ofile⟩
  parent : ∀ q q' ch ch', (R q).child = some ch → (R q').child = some ch' → ch.np = ch'.np → q = q'
  spare : ∀ q, Spare R q → (proc q).cwd = none ∧ (proc q).ofile = fun _ => none

/-- The number of open files on an inode. -/
def filesOn (ftable : Fin NFILE → File) (ip : Fin NINODE) : Nat := count ftable (·.inode = some ip)

/-- The references to an inode that processes hold. -/
def refsTo (R : Pid → Res) (ip : Fin NINODE) : Nat := total (·.refs ip) R

/-- The references to a file that processes hold. -/
def filesTo (R : Pid → Res) (f : Fin NFILE) : Nat := total (·.files f) R

/-- The reference counts. -/
structure Counts (a : Abs) (R : Pid → Res) : Prop where
  iref : ∀ ip, (a.inode ip).ref = filesOn a.ftable ip + refsTo R ip
  fref : ∀ f, (a.ftable f).ref = filesTo R f
  closed : ∀ f, (a.ftable f).ref = 0 → (a.ftable f).type = .FD_NONE
  off : ∀ f, (a.ftable f).off < 2 ^ 32
  fresh : ∀ q f, (R q).fresh f = true →
    (a.ftable f).type = .FD_NONE ∧ (a.ftable f).ref = 1 ∧ (R q).files f = 1
  seen : ∀ q f ip, (R q).seen f = some ip → 0 < (R q).files f ∧ (a.ftable f).inode = some ip

/-- The number of open files on an end of a pipe. -/
def filesAt (ftable : Fin NFILE → File) (e : Nat × Bool) : Nat := count ftable (·.pipeEnd = some e)

/-- The references to an end of a pipe that processes hold. -/
def endsTo (R : Pid → Res) (e : Nat × Bool) : Nat := total (·.ends e) R

/-- What there has to be for an end of a pipe. -/
def openEnds (x : Option PipeEnds) (writable : Bool) : Nat :=
  match x with
  | some e => if e.isOpen writable then 1 else 0
  | none => 0

/-- The pipes. -/
structure Pipes (a : Abs) (R : Pid → Res) : Prop where
  count : ∀ pi writable,
    filesAt a.ftable (pi, writable) + endsTo R (pi, writable) = openEnds (a.pipe pi) writable
  doomed : ∀ q pi, (R q).doomed = some pi → a.pipe pi = some ⟨false, false⟩
  closed : ∀ pi, a.pipe pi = some ⟨false, false⟩ → ∃ q, (R q).doomed = some pi
  one : ∀ q q' pi, (R q).doomed = some pi → (R q').doomed = some pi → q = q'

/-- The locks of inodes. -/
structure Locks (t : Prop) (a : Abs) (R : Pid → Res) : Prop where
  lock : ∀ ip q, a.lock ip = some q ↔ (R q).locks ip ≠ none
  backed : ∀ q ip, (R q).locks ip ≠ none → (R q).Backed ip
  held : ∀ q ip h, (R q).locks ip = some h → Knows t a ip h
  free : ∀ ip, a.lock ip = none → 0 < (a.inode ip).ref → (a.inode ip).valid = true →
    (a.inode ip).attr.type ≠ 0 ∧ (t → Stored a ip)

/-- No inode has two entries in use. -/
def Abs.Unique (a : Abs) : Prop :=
  ∀ ip jp, 0 < (a.inode ip).ref → 0 < (a.inode jp).ref → a.inum ip = a.inum jp → ip = jp

structure Holds (sb : Superblock) (t : Prop) (a : Abs) (R : Pid → Res) : Prop where
  procs : Procs a.proc R
  counts : Counts a R
  pipes : Pipes a R
  unique : a.Unique
  locks : Locks t a R
  dirs : t → ∀ i nd, a.node i = some nd → nd.attr.type = T_DIR → Named sb nd.data

/-- What the inode table being in order means for the abstract kernel. -/
structure Abs.Ok (sb : Superblock) (a : Abs) : Prop where
  inum_lt : ∀ ip, 0 < (a.inode ip).ref → a.inum ip < sb.ninodes
  type : ∀ ip, a.Held ip → (a.inode ip).attr.type ≠ 0 →
    ∃ nd, a.nodeOf ip = some nd ∧ nd.attr.type = (a.inode ip).attr.type
  node : ∀ i nd, a.node i = some nd → nd.attr.type ≠ 0
  size : ∀ ip, a.Held ip → (a.data ip).length ≤ MAXFILE * BSIZE

theorem view_ok {sb : Superblock} {s : Kernel} (h : Table sb s.fs) : (view sb s).Ok sb where
  inum_lt := h.inum_lt
  type := by
    intro ip hh hne
    have ht := (h.agrees ip hh.ref hh.valid).type hne
    exact ⟨_, node_of_type (h.inum_lt ip hh.ref) fun h0 => hne (ht.symm.trans h0), ht⟩
  node := by
    intro i nd hnd
    obtain ⟨-, ht, rfl⟩ := node_eq_some hnd
    exact ht
  size := by
    intro ip hh
    rw [view_size h hh]
    exact (h.mapped (view_held hh)).size_le

/-- Nothing but single entries is written to a directory, and those by the
    kernel. -/
def NoDirWrite (a : Abs) : Cmd → Prop
  | .writei user _ ip _ _ n => (a.inode ip).attr.type = T_DIR → user = false ∧ n = Dirent.SIZE
  | _ => True

/-! ## Consequences -/

section Lemmas

variable {sb : Superblock} {t : Prop} {a a' : Abs} {R R' : Pid → Res} {p q : Pid}
  {ip jp : Fin NINODE} {f : Fin NFILE} {u : Res} {h : Hold}

theorem refs_le (R : Pid → Res) (ip : Fin NINODE) (q : Pid) : (R q).refs ip ≤ refsTo R ip :=
  le_total (f := R) (g := fun r : Res => r.refs ip) q

theorem files_le (R : Pid → Res) (f : Fin NFILE) (q : Pid) : (R q).files f ≤ filesTo R f :=
  le_total (f := R) (g := fun r : Res => r.files f) q

theorem refsTo_update (ip : Fin NINODE) :
    refsTo (update R p u) ip + (R p).refs ip = refsTo R ip + u.refs ip :=
  total_update (f := R) (g := fun r : Res => r.refs ip) (i := p) (a := u)

theorem filesTo_update (f : Fin NFILE) :
    filesTo (update R p u) f + (R p).files f = filesTo R f + u.files f :=
  total_update (f := R) (g := fun r : Res => r.files f) (i := p) (a := u)

theorem endsTo_update (e : Nat × Bool) :
    endsTo (update R p u) e + (R p).ends e = endsTo R e + u.ends e :=
  total_update (f := R) (g := fun r : Res => r.ends e) (i := p) (a := u)

theorem ends_le (R : Pid → Res) (e : Nat × Bool) (q : Pid) : (R q).ends e ≤ endsTo R e :=
  le_total (f := R) (g := fun r : Res => r.ends e) q

theorem filesOn_pos {ftable : Fin NFILE → File} (h : (ftable f).inode = some ip) :
    0 < filesOn ftable ip :=
  count_pos.mpr ⟨f, h⟩

theorem Counts.ref_pos (hc : Counts a R) (hb : (R q).Backed ip) : 0 < (a.inode ip).ref := by
  rw [hc.iref ip]
  rcases hb with hr | ⟨f, hf⟩
  · have := refs_le R ip q
    omega
  · have := filesOn_pos (hc.seen q f ip hf).2
    omega

theorem Counts.file_pos (hc : Counts a R) (hf : 0 < (R q).files f) : 0 < (a.ftable f).ref := by
  rw [hc.fref f]
  exact lt_of_lt_of_le hf (files_le R f q)

/-- A process that has a reference to an inode that another has locked: there
    are two references. -/
theorem Counts.two_refs (hc : Counts a R) (hne : q ≠ p) (hp : 0 < (R p).refs ip)
    (hq : (R q).Backed ip) : 1 < (a.inode ip).ref := by
  rw [hc.iref ip]
  rcases hq with hr | ⟨f, hf⟩
  · have : (R q).refs ip + (R p).refs ip ≤ refsTo R ip :=
      add_le_total (f := R) (g := fun r : Res => r.refs ip) hne
    omega
  · have := filesOn_pos (hc.seen q f ip hf).2
    have := refs_le R ip p
    omega

/-- **The last reference.** When a process drops a reference, and it is the
    last, then nobody has locked the inode. -/
theorem Holds.last_free (hh : Holds sb t a R) (hpre : Pre sb t (.iputLast ip) (R p))
    (hlast : (a.inode ip).ref = 1) : a.lock ip = none := by
  obtain ⟨hpos, hself⟩ := hpre
  cases hl : a.lock ip with
  | none => rfl
  | some q =>
    have hq := (hh.locks.lock ip q).mp hl
    by_cases hqp : q = p
    · subst hqp
      have h2 := hself hq
      have := refs_le R ip q
      have := hh.counts.iref ip
      omega
    · have := hh.counts.two_refs hqp hpos (hh.locks.backed q ip hq)
      omega

theorem Locks.ref_pos (hl : Locks t a R) (hc : Counts a R) (h : (R q).locks ip ≠ none) :
    0 < (a.inode ip).ref :=
  hc.ref_pos (hl.backed q ip h)

/-- An inode whose lock the process holds can be used. -/
theorem Holds.held (hh : Holds sb t a R) (hl : (R p).locks ip = some h) (hv : h.valid = true) :
    a.Held ip ∧ (a.inode ip).attr = h.attr := by
  have hk := hh.locks.held p ip h hl
  have hne : (R p).locks ip ≠ none := fun hc => by rw [hl] at hc; cases hc
  exact ⟨⟨hh.locks.ref_pos hh.counts hne, hk.valid.trans hv⟩, hk.attr hv⟩

/-- **What a command needs, it has.** -/
theorem Holds.guard {c : Cmd} (hh : Holds sb t a R) (ht : t) (hpre : Pre sb t c (R p)) :
    a.Guard sb c := by
  cases c with
  | iget inum => exact hpre ht
  | idup ip => exact hh.counts.ref_pos (.inl hpre)
  | iputLast ip => exact hh.counts.ref_pos (.inl hpre.1)
  | invalidate ip => exact hh.locks.ref_pos hh.counts hpre
  | unref ip => exact hh.counts.ref_pos (.inl hpre.1)
  | ialloc type inum => exact hpre
  | size ip | iupdate ip =>
    obtain ⟨h, hl, hv⟩ := hpre
    exact (hh.held hl hv).1
  | modify ip f =>
    obtain ⟨h, hl, hv, hr, hkeep⟩ := hpre
    obtain ⟨hheld, hattr⟩ := hh.held hl hv
    refine ⟨hheld, by rw [hattr]; exact hr, ?_⟩
    rw [Abs.KeepsType, hattr]
    rcases hkeep with he | ⟨h0, hb⟩
    · exact .inl he
    · exact .inr ⟨h0, (hh.locks.held p ip h hl).bare ht hb⟩
  | itrunc ip =>
    obtain ⟨h, hl, hv, htype⟩ := hpre
    obtain ⟨hheld, hattr⟩ := hh.held hl hv
    exact ⟨hheld, by rw [hattr]; exact htype⟩
  | readi cp ip dst off n =>
    obtain ⟨⟨h, hl, hv⟩, hlt⟩ := hpre
    exact ⟨(hh.held hl hv).1, hlt ht⟩
  | writei user cp ip src off n =>
    obtain ⟨hlt, m, hl, htype, -⟩ := hpre
    obtain ⟨hheld, hattr⟩ := hh.held hl rfl
    exact ⟨hheld, by rw [hattr]; exact htype, hlt ht⟩
  | _ => trivial

end Lemmas

end NoviceKernel.Sys
