import NoviceKernel.FsCmd
import NoviceKernel.Lib.Bytes

/-! # The file system calls

    The upper half of `fs.c` (directories and path names), `file.c`,
    `sysfile.c`, `sys_symlink`, and what `exec`, `fork` and `exit` do with
    inodes and files, as programs over the commands. -/

namespace NoviceKernel.Sys

open FS Program

abbrev Code := Prog sig

/-- The program of one command. -/
abbrev cmd (c : Cmd) : Code c.Ret := Prog.call (S := sig) c

/-- `panic(msg)`. -/
def panic {α : Type} (msg : String) : Code α := .cmd (.panic msg) Empty.elim

abbrev begin_op : Code Unit := cmd .begin_op
abbrev end_op : Code Unit := cmd .end_op
abbrev iget (inum : Nat) : Code (Fin NINODE) := cmd (.iget inum)
abbrev idup (ip : Fin NINODE) : Code Unit := cmd (.idup ip)
abbrev ilock (ip : Fin NINODE) : Code Unit := cmd (.ilock ip)
abbrev iunlock (ip : Fin NINODE) : Code Unit := cmd (.iunlock ip)
abbrev inum (ip : Fin NINODE) : Code Nat := cmd (.inum ip)
abbrev attr (ip : Fin NINODE) : Code Attr := cmd (.attr ip)
abbrev size (ip : Fin NINODE) : Code Nat := cmd (.size ip)
abbrev modify (ip : Fin NINODE) (f : Attr → Attr) : Code Unit := cmd (.modify ip f)
abbrev iupdate (ip : Fin NINODE) : Code Unit := cmd (.iupdate ip)
abbrev itrunc (ip : Fin NINODE) : Code Unit := cmd (.itrunc ip)
abbrev iputLast (ip : Fin NINODE) : Code Bool := cmd (.iputLast ip)
abbrev iallocTry (type inum : Nat) : Code Bool := cmd (.ialloc type inum)
abbrev filealloc : Code (Option (Fin NFILE)) := cmd .filealloc
abbrev file (f : Fin NFILE) : Code File := cmd (.file f)
abbrev filedrop (f : Fin NFILE) : Code (Option File) := cmd (.filedrop f)
abbrev ofile (fd : Fin NOFILE) : Code (Option (Fin NFILE)) := cmd (.ofile fd)
abbrev fdalloc (f : Fin NFILE) : Code (Option (Fin NOFILE)) := cmd (.fdalloc f)
abbrev cwd : Code (Fin NINODE) := cmd .cwd
abbrev allocproc : Code (Option Pid) := cmd .allocproc

/-- A copy from the kernel's own memory. -/
def ofBytes (bs : Bytes) : Copyin where
  run := fun src m => ((List.range m).map fun i => bs.getD (src + i) 0, true)
  len := by simp
  full := by simp

/-- `readi` into kernel memory. -/
abbrev readi (ip : Fin NINODE) (off n : Nat) : Code (Int × Bytes) :=
  cmd (.readi (fun _ _ => true) ip 0 off n)

/-- `readi` into user memory. -/
abbrev readUser (cp : Nat → Nat → Bool) (ip : Fin NINODE) (dst off n : Nat) : Code (Int × Bytes) :=
  cmd (.readi cp ip dst off n)

/-- `writei` from user memory. -/
abbrev writeUser (cp : Copyin) (ip : Fin NINODE) (src off n : Nat) : Code Int :=
  cmd (.writei true cp ip src off n)

/-- `writei` from kernel memory. -/
abbrev writei (ip : Fin NINODE) (bs : Bytes) (off n : Nat) : Code Int :=
  cmd (.writei false (ofBytes bs) ip 0 off n)

/-! ## Inodes -/

def iput (ip : Fin NINODE) : Code Unit := do
  if ← iputLast ip then
    -- no links and no other references: truncate and free
    itrunc ip
    modify ip fun x => { x with type := 0 }
    iupdate ip
    cmd (.invalidate ip)
    cmd (.releasesleep ip)
    cmd (.unref ip)
  else pure ()

def iunlockput (ip : Fin NINODE) : Code Unit := do
  iunlock ip
  iput ip

/-- The loop of `ialloc` from `inum` on, `n` inodes left. -/
def ialloc_loop (type : Nat) : Nat → Nat → Code (Fin NINODE)
  | 0, _ => panic "ialloc: no inodes"
  | n + 1, inum => do
    if ← iallocTry type inum then iget inum
    else ialloc_loop type n (inum + 1)

def ialloc (sb : Superblock) (type : Nat) : Code (Fin NINODE) := ialloc_loop type (sb.ninodes - 1) 1

/-! ## Directories -/

/-- The loop of `dirlookup` from offset `off` on; the entry found and its
    offset. -/
def dirlookup_loop (dp : Fin NINODE) (name : Bytes) : Nat → Nat → Code (Option (Fin NINODE × Nat))
  | 0, _ => return none
  | n + 1, off => do
    if off < (← size dp) then
      let (r, bs) ← readi dp off Dirent.SIZE
      if r ≠ Dirent.SIZE then panic "dirlookup read"
      else if (Dirent.load bs).inum = 0 then dirlookup_loop dp name n (off + Dirent.SIZE)
      else if namecmp name (Dirent.load bs).name = 0 then
        return some (← iget (Dirent.load bs).inum, off)
      else dirlookup_loop dp name n (off + Dirent.SIZE)
    else return none

/-- Bound on the rounds of a loop over the entries of a directory. -/
def entries (size : Nat) : Nat := size / Dirent.SIZE + 1

def dirlookup (dp : Fin NINODE) (name : Bytes) : Code (Option (Fin NINODE × Nat)) := do
  if (← attr dp).type ≠ T_DIR then panic "dirlookup not DIR"
  else dirlookup_loop dp name (entries (← size dp)) 0

/-- The loop of `dirlink` that looks for an empty entry. -/
def dirlink_loop (dp : Fin NINODE) : Nat → Nat → Code Nat
  | 0, off => return off
  | n + 1, off => do
    if off < (← size dp) then
      let (r, bs) ← readi dp off Dirent.SIZE
      if r ≠ Dirent.SIZE then panic "dirlink read"
      else if (Dirent.load bs).inum = 0 then return off
      else dirlink_loop dp n (off + Dirent.SIZE)
    else return off

def dirlink (dp : Fin NINODE) (name : Bytes) (inum : Nat) : Code Int := do
  match ← dirlookup dp name with
  | some (ip, _) => do
    iput ip
    return -1
  | none => do
    let off ← dirlink_loop dp (entries (← size dp)) 0
    let n ← writei dp (Dirent.bytes ⟨inum, strncpy name DIRSIZ⟩) off Dirent.SIZE
    if n ≠ Dirent.SIZE then panic "dirlink"
    else return 0

/-- The loop of `isdirempty`. -/
def isdirempty_loop (dp : Fin NINODE) : Nat → Nat → Code Bool
  | 0, _ => return true
  | n + 1, off => do
    if off < (← size dp) then
      let (r, bs) ← readi dp off Dirent.SIZE
      if r ≠ Dirent.SIZE then panic "isdirempty: readi"
      else if (Dirent.load bs).inum ≠ 0 then return false
      else isdirempty_loop dp n (off + Dirent.SIZE)
    else return true

def isdirempty (dp : Fin NINODE) : Code Bool := do
  isdirempty_loop dp (entries (← size dp)) (2 * Dirent.SIZE)

/-! ## Path names -/

/-- The end of `namex` when the path is used up. -/
def namex_end (parent : Bool) (ip : Fin NINODE) : Code (Option (Fin NINODE × Bytes)) :=
  if parent then do
    iput ip
    return none
  else return some (ip, [])

/-- The loop of `namex`, at most `n` rounds; returns the inode and, for
    `nameiparent`, the final element of the path. -/
def namex_loop (parent : Bool) : Nat → Fin NINODE → Bytes → Code (Option (Fin NINODE × Bytes))
  | 0, ip, _ => namex_end parent ip
  | n + 1, ip, path =>
    match skipelem path with
    | none => namex_end parent ip
    | some (rest, name) => do
      ilock ip
      if (← attr ip).type ≠ T_DIR then do
        iunlockput ip
        return none
      else if parent ∧ rest = [] then do
        -- stop one level early
        iunlock ip
        return some (ip, name)
      else do
        match ← dirlookup ip name with
        | none => do
          iunlockput ip
          return none
        | some (next, _) => do
          iunlockput ip
          namex_loop parent n next rest

def namex (parent : Bool) (path : Bytes) : Code (Option (Fin NINODE × Bytes)) :=
  if path.head? = some SLASH then do
    let ip ← iget ROOTINO
    namex_loop parent path.length ip path
  else do
    let ip ← cwd
    idup ip
    namex_loop parent path.length ip path

def namei (path : Bytes) : Code (Option (Fin NINODE)) := do
  return (← namex false path).map Prod.fst

def nameiparent (path : Bytes) : Code (Option (Fin NINODE × Bytes)) := namex true path

/-! ## Files (`file.c`) -/

def pipeclose (pi : Nat) (writable : Bool) : Code Unit := do
  if ← cmd (.pipeclose pi writable) then cmd (.kfree pi) else pure ()

def fileclose (f : Fin NFILE) : Code Unit := do
  match ← filedrop f with
  | none => return ()
  | some ff =>
    match ff.type with
    | .FD_INODE | .FD_DEVICE => do
      begin_op
      iput ff.ip
      end_op
    | .FD_PIPE => pipeclose ff.pipe ff.writable
    | .FD_NONE => return ()

/-- `fileread`; `cp` says which copies to user memory succeed, and `other` is
    what a read from a pipe or a device returns. -/
def fileread (cp : Nat → Nat → Bool) (other : Int) (f : Fin NFILE) (addr n : Nat) : Code Int := do
  let x ← file f
  if x.readable = false then return -1
  else match x.type with
    | .FD_PIPE | .FD_DEVICE => return other
    | .FD_INODE => do
      ilock x.ip
      let off := (← file f).off
      let (r, _) ← readUser cp x.ip addr off n
      if 0 < r then cmd (.advance f r.toNat) else pure ()
      iunlock x.ip
      return r
    | .FD_NONE => panic "fileread"

/-- Bytes that `filewrite` writes in one transaction. -/
def FILEMAX : Nat := (MAXOPBLOCKS - 1 - 1 - 2) / 2 * BSIZE

/-- The loop of `filewrite`, at most `k` rounds; returns `i`. -/
def filewrite_loop (cp : Copyin) (f : Fin NFILE) (ip : Fin NINODE) (addr n : Nat) :
    Nat → Nat → Code Nat
  | 0, i => return i
  | k + 1, i =>
    if i < n then do
      let n1 := min (n - i) FILEMAX
      begin_op
      ilock ip
      let off := (← file f).off
      let r ← writeUser cp ip ((addr + i) % 2 ^ 64) off n1
      if 0 < r then cmd (.advance f r.toNat) else pure ()
      iunlock ip
      end_op
      if r ≠ n1 then return i
      else filewrite_loop cp f ip addr n k (i + n1)
    else return i

/-- `filewrite`; `cp` copies from user memory, and `other` is what a write to a
    pipe or a device returns. -/
def filewrite (cp : Copyin) (other : Int) (f : Fin NFILE) (addr : Nat) (n : Int) : Code Int := do
  let x ← file f
  if x.writable = false then return -1
  else match x.type with
    | .FD_PIPE | .FD_DEVICE => return other
    | .FD_INODE => do
      let i ← filewrite_loop cp f x.ip addr n.toNat n.toNat 0
      return if (i : Int) = n then n else -1
    | .FD_NONE => panic "filewrite"

/-! ## Links (`sysfile.c`) -/

/-- `ip->nlink++`; `nlink` is a `short`. -/
def incLink (x : Attr) : Attr := { x with nlink := (x.nlink + 1) % 2 ^ 16 }

/-- `ip->nlink--`. -/
def decLink (x : Attr) : Attr := { x with nlink := (x.nlink + (2 ^ 16 - 1)) % 2 ^ 16 }

/-- The end of `sys_link` when the new name cannot be made. -/
def link_bad (ip : Fin NINODE) : Code Int := do
  ilock ip
  modify ip decLink
  iupdate ip
  iunlockput ip
  end_op
  return -1

/-- `sys_link`; an argument is `none` if it cannot be fetched. -/
def sys_link : Option Bytes → Option Bytes → Code Int
  | some old, some new => do
    begin_op
    match ← namei old with
    | none => do
      end_op
      return -1
    | some ip => do
      ilock ip
      if (← attr ip).type = T_DIR then do
        iunlockput ip
        end_op
        return -1
      else do
        modify ip incLink
        iupdate ip
        iunlock ip
        match ← nameiparent new with
        | none => link_bad ip
        | some (dp, name) => do
          ilock dp
          let r ← dirlink dp name (← inum ip)
          if r < 0 then do
            iunlockput dp
            link_bad ip
          else do
            iunlockput dp
            iput ip
            end_op
            return 0
  | _, _ => return -1

/-- The end of `sys_unlink` when nothing is unlinked. -/
def unlink_bad (dp : Fin NINODE) : Code Int := do
  iunlockput dp
  end_op
  return -1

/-- The end of `sys_unlink`: erase the entry at `off` of `dp` that names `ip`. -/
def unlink_entry (dp ip : Fin NINODE) (off : Nat) (isdir : Bool) : Code Int := do
  let n ← writei dp [] off Dirent.SIZE
  if n ≠ Dirent.SIZE then panic "unlink: writei"
  else do
    if isdir then do
      modify dp decLink
      iupdate dp
    else pure ()
    iunlockput dp
    modify ip decLink
    iupdate ip
    iunlockput ip
    end_op
    return 0

def sys_unlink : Option Bytes → Code Int
  | some path => do
    begin_op
    match ← nameiparent path with
    | none => do
      end_op
      return -1
    | some (dp, name) => do
      ilock dp
      -- cannot unlink "." or ".."
      if namecmp name dot = 0 ∨ namecmp name dotdot = 0 then unlink_bad dp
      else do
        match ← dirlookup dp name with
        | none => unlink_bad dp
        | some (ip, off) => do
          ilock ip
          let d ← attr ip
          -- as a signed number
          if d.nlink = 0 ∨ 2 ^ 15 ≤ d.nlink then panic "unlink: nlink < 1"
          else if d.type = T_DIR then do
            if ← isdirempty ip then unlink_entry dp ip off true
            else do
              iunlockput ip
              unlink_bad dp
          else unlink_entry dp ip off false
  | none => return -1

/-- The part of `create` that makes the entries of a new inode. -/
def create_link (dp ip : Fin NINODE) (name : Bytes) : Code (Option (Fin NINODE)) := do
  let r ← dirlink dp name (← inum ip)
  if r < 0 then panic "create: dirlink"
  else do
    iunlockput dp
    return some ip

/-- `.` and `..` of a new directory. -/
def create_dots (dp ip : Fin NINODE) : Code Unit := do
  modify dp incLink  -- for ".."
  iupdate dp
  let r ← dirlink ip dot (← inum ip)
  if r < 0 then panic "create dots"
  else do
    let r ← dirlink ip dotdot (← inum dp)
    if r < 0 then panic "create dots"
    else return ()

/-- The part of `create` for a name that is not there yet. -/
def create_new (sb : Superblock) (dp : Fin NINODE) (name : Bytes) (type major minor : Nat) :
    Code (Option (Fin NINODE)) := do
  let ip ← ialloc sb type
  ilock ip
  modify ip fun x => { x with major := major % 2 ^ 16, minor := minor % 2 ^ 16, nlink := 1 }
  iupdate ip
  if type = T_DIR then do
    create_dots dp ip
    create_link dp ip name
  else create_link dp ip name

/-- The part of `create` for a name that exists: only an open that may create
    a file accepts it. -/
def create_old (dp ip : Fin NINODE) (type : Nat) : Code (Option (Fin NINODE)) := do
  iunlockput dp
  ilock ip
  let d ← attr ip
  if type = T_FILE ∧ (d.type = T_FILE ∨ d.type = T_DEVICE) then return some ip
  else do
    iunlockput ip
    return none

def create (sb : Superblock) (path : Bytes) (type major minor : Nat) : Code (Option (Fin NINODE)) :=
  do
  match ← nameiparent path with
  | none => return none
  | some (dp, name) => do
    ilock dp
    match ← dirlookup dp name with
    | some (ip, _) => create_old dp ip type
    | none => create_new sb dp name type major minor

/-! ## `sys_open` -/

def O_RDONLY : Nat := 0x000
def O_WRONLY : Nat := 0x001
def O_RDWR : Nat := 0x002
def O_NOFOLLOW : Nat := 0x004
def O_CREATE : Nat := 0x200
def O_TRUNC : Nat := 0x400

/-- Longest chain of symbolic links that is followed. -/
def MAXDEPTH : Nat := 10

/-- The inode that the path names, locked, or a new file. -/
def open_path (sb : Superblock) (path : Bytes) (omode : Nat) : Code (Option (Fin NINODE)) :=
  if omode &&& O_CREATE ≠ 0 then create sb path T_FILE 0 0
  else do
    match ← namei path with
    | none => return none
    | some ip => do
      ilock ip
      if (← attr ip).type = T_DIR ∧ omode ≠ O_RDONLY then do
        iunlockput ip
        return none
      else return some ip

/-- The loop over the symbolic links, `cnt` of them left.  `past` is what stands
    in memory behind the buffer `target`: without a NUL in the buffer the path
    goes on there. -/
def follow (past : Bytes) : Nat → Fin NINODE → Code (Option (Fin NINODE))
  | 0, ip => return some ip
  | cnt + 1, ip => do
    let (r, target) ← readi ip 0 MAXPATH
    if r ≠ MAXPATH then do
      iunlockput ip
      return none
    else do
      iunlockput ip
      match ← namei (cstring (target ++ past)) with
      | none => return none
      | some ip => do
        ilock ip
        if (← attr ip).type ≠ T_SYMLINK then return some ip
        else if cnt = 0 then do
          iunlockput ip
          return none
        else follow past cnt ip

/-- The inode that is opened, if `ip` may be a symbolic link. -/
def open_follow (omode : Nat) (past : Bytes) (ip : Fin NINODE) : Code (Option (Fin NINODE)) := do
  if (← attr ip).type = T_SYMLINK ∧ omode &&& O_NOFOLLOW = 0 then follow past MAXDEPTH ip
  else return some ip

/-- The error exits of `sys_open` with an inode. -/
def open_bad (ip : Fin NINODE) : Code Int := do
  iunlockput ip
  end_op
  return -1

/-- `f->readable`. -/
def readable (omode : Nat) : Bool := omode &&& O_WRONLY = 0

/-- `f->writable`. -/
def writable (omode : Nat) : Bool := omode &&& O_WRONLY ≠ 0 ∨ omode &&& O_RDWR ≠ 0

/-- The file and the descriptor for the inode `ip`. -/
def open_file (omode : Nat) (ip : Fin NINODE) : Code Int := do
  let d ← attr ip
  -- a negative `major` is a large one here
  if d.type = T_DEVICE ∧ NDEV ≤ d.major then open_bad ip
  else do
    match ← filealloc with
    | none => open_bad ip
    | some f => do
      match ← fdalloc f with
      | none => do
        fileclose f
        open_bad ip
      | some fd => do
        cmd (.setFile f ip (if d.type = T_DEVICE then some d.major else none) (readable omode)
          (writable omode))
        if omode &&& O_TRUNC ≠ 0 ∧ d.type = T_FILE then itrunc ip else pure ()
        iunlock ip
        end_op
        return (fd.val : Int)

def sys_open (sb : Superblock) (past : Bytes) : Option Bytes → Nat → Code Int
  | some path, omode => do
    begin_op
    match ← open_path sb path omode with
    | none => do
      end_op
      return -1
    | some ip =>
      match ← open_follow omode past ip with
      | none => do
        end_op
        return -1
      | some ip => open_file omode ip
  | none, _ => return -1

/-! ## Calls that create an inode -/

/-- What `sys_mkdir` and `sys_mknod` do with what `create` returned. -/
def created : Option (Fin NINODE) → Code Int
  | none => do
    end_op
    return -1
  | some ip => do
    iunlockput ip
    end_op
    return 0

def sys_mkdir (sb : Superblock) : Option Bytes → Code Int
  | some path => do
    begin_op
    created (← create sb path T_DIR 0 0)
  | none => do
    begin_op
    end_op
    return -1

def sys_mknod (sb : Superblock) (major minor : Nat) : Option Bytes → Code Int
  | some path => do
    begin_op
    created (← create sb path T_DEVICE major minor)
  | none => do
    begin_op
    end_op
    return -1

/-- `sys_symlink`; `past` is what was in the buffer `target` behind the string. -/
def sys_symlink (sb : Superblock) (past : Bytes) : Option Bytes → Option Bytes → Code Int
  | some target, some path => do
    begin_op
    match ← create sb path T_SYMLINK 0 0 with
    | none => do
      end_op
      return -1
    | some ip => do
      let n ← writei ip (target ++ 0 :: past) 0 MAXPATH
      iunlockput ip
      end_op
      return if n < MAXPATH then -1 else 0
  | _, _ => return -1

/-! ## The process -/

def sys_chdir : Option Bytes → Code Int
  | some path => do
    begin_op
    match ← namei path with
    | none => do
      end_op
      return -1
    | some ip => do
      ilock ip
      if (← attr ip).type ≠ T_DIR then do
        iunlockput ip
        end_op
        return -1
      else do
        iunlock ip
        iput (← cwd)
        end_op
        cmd (.setCwd (some ip))
        return 0
  | none => do
    begin_op
    end_op
    return -1

/-- The file of descriptor `fd`; `argfd` fails for a descriptor out of range
    (`none`) or not in use. -/
def argfd : Option (Fin NOFILE) → Code (Option (Fin NOFILE × Fin NFILE))
  | none => return none
  | some fd => do
    match ← ofile fd with
    | none => return none
    | some f => return some (fd, f)

def sys_dup (fd : Option (Fin NOFILE)) : Code Int := do
  match ← argfd fd with
  | none => return -1
  | some (_, f) => do
    match ← fdalloc f with
    | none => return -1
    | some fd => do
      cmd (.filedup f)
      return (fd.val : Int)

def sys_close (fd : Option (Fin NOFILE)) : Code Int := do
  match ← argfd fd with
  | none => return -1
  | some (fd, f) => do
    cmd (.fdclear fd)
    fileclose f
    return 0

def sys_read (cp : Nat → Nat → Bool) (other : Int) (fd : Option (Fin NOFILE)) (addr n : Nat) :
    Code Int := do
  match ← argfd fd with
  | none => return -1
  | some (_, f) => fileread cp other f addr n

def sys_write (cp : Copyin) (other : Int) (fd : Option (Fin NOFILE)) (addr : Nat) (n : Int) :
    Code Int := do
  match ← argfd fd with
  | none => return -1
  | some (_, f) => filewrite cp other f addr n

/-- `pipealloc`; `page` is what `kalloc` returns. -/
def pipealloc (page : Option Nat) : Code (Option (Fin NFILE × Fin NFILE)) := do
  match ← filealloc with
  | none => return none
  | some f0 => do
    match ← filealloc with
    | none => do
      fileclose f0
      return none
    | some f1 => do
      match ← cmd (.kalloc page) with
      | none => do
        fileclose f0
        fileclose f1
        return none
      | some pi => do
        cmd (.setPipe f0 pi false)
        cmd (.setPipe f1 pi true)
        return some (f0, f1)

/-- The error exits of `sys_pipe` after the files have been made. -/
def pipe_bad (rf wf : Fin NFILE) : Code Int := do
  fileclose rf
  fileclose wf
  return -1

/-- `sys_pipe`; `page` is what `kalloc` returns, `args` and `copied` say whether
    the argument can be fetched and both descriptors can be copied out. -/
def sys_pipe (page : Option Nat) (args copied : Bool) : Code Int :=
  if args = false then return -1
  else do
    match ← pipealloc page with
    | none => return -1
    | some (rf, wf) => do
      match ← fdalloc rf with
      | none => pipe_bad rf wf
      | some fd0 => do
        match ← fdalloc wf with
        | none => do
          cmd (.fdclear fd0)
          pipe_bad rf wf
        | some fd1 =>
          if copied then return 0
          else do
            cmd (.fdclear fd0)
            cmd (.fdclear fd1)
            pipe_bad rf wf

/-- Page size. -/
def PGSIZE : Nat := 4096

/-- The loop of `loadseg`, `k` pages left. -/
def loadseg_loop (ip : Fin NINODE) (offset sz : Nat) : Nat → Nat → Code Bool
  | 0, _ => return true
  | k + 1, i => do
    let n := min (sz - i) PGSIZE
    let (r, _) ← readi ip ((offset + i) % 2 ^ 32) n
    if r ≠ n then return false else loadseg_loop ip offset sz k (i + PGSIZE)

def loadseg (ip : Fin NINODE) (offset sz : Nat) : Code Bool :=
  loadseg_loop ip offset sz ((sz + PGSIZE - 1) / PGSIZE) 0

/-- A field of `n` bytes in a buffer. -/
def field (bs : Bytes) (a n : Nat) : Nat := Bytes.load (fun i => bs.getD i 0) a n

/-- The loop of `exec` over the program headers; `mem i` says whether
    `uvmalloc` has memory for segment `i`. -/
def exec_loop (mem : Nat → Bool) (ip : Fin NINODE) : Nat → Nat → Nat → Code Bool
  | 0, _, _ => return true
  | k + 1, i, off => do
    let (r, ph) ← readi ip (off % 2 ^ 32) 56
    if r ≠ 56 then return false
    else if field ph 0 4 ≠ 1 then exec_loop mem ip k (i + 1) (off + 56)
    else if field ph 40 8 < field ph 32 8 then return false
    else if 2 ^ 64 ≤ field ph 16 8 + field ph 40 8 then return false
    else if mem i = false then return false
    else if field ph 16 8 % PGSIZE ≠ 0 then return false
    else do
      if ← loadseg ip (field ph 8 8 % 2 ^ 32) (field ph 32 8 % 2 ^ 32) then
        exec_loop mem ip k (i + 1) (off + 56)
      else return false

/-- Check the ELF header and load the program. -/
def exec_load (pagetable : Bool) (mem : Nat → Bool) (ip : Fin NINODE) : Code Bool := do
  let (r, elf) ← readi ip 0 64
  if r ≠ 64 then return false
  else if field elf 0 4 ≠ 0x464C457F then return false
  else if pagetable = false then return false
  else exec_loop mem ip (field elf 56 2) 0 (field elf 32 8)

/-- `exec`, the part that uses the file system. `pagetable` says whether there is
    memory for a page table, and `rest` is what the part after loading the
    program (the stack and the arguments) returns. -/
def execve (pagetable : Bool) (mem : Nat → Bool) (rest : Int) (path : Bytes) : Code Int := do
  begin_op
  match ← namei path with
  | none => do
    end_op
    return -1
  | some ip => do
    ilock ip
    let loaded ← exec_load pagetable mem ip
    iunlockput ip
    end_op
    return if loaded then rest else -1

/-- `sys_exec`; `args` says whether the arguments could be fetched. -/
def sys_exec (args pagetable : Bool) (mem : Nat → Bool) (rest : Int) : Option Bytes → Code Int
  | some path => if args then execve pagetable mem rest path else return -1
  | none => return -1

/-- The loop of `fork` over the open files. -/
def fork_files (np : Pid) : List (Fin NOFILE) → Code Unit
  | [] => return ()
  | fd :: fds => do
    match ← ofile fd with
    | none => fork_files np fds
    | some f => do
      cmd (.filedup f)
      cmd (.giveFile np fd f)
      fork_files np fds

/-- `fork`; `mem` says whether `uvmcopy` has enough memory. -/
def fork (mem : Bool) : Code Int := do
  match ← allocproc with
  | none => return -1
  | some np =>
    if mem then do
      fork_files np (List.finRange NOFILE)
      let ip ← cwd
      idup ip
      cmd (.giveCwd np ip)
      cmd (.runnable np)
      return (np.val : Int)
    else do
      cmd (.freeproc np)
      return -1

/-- The loop of `exit` over the open files. -/
def exit_files : List (Fin NOFILE) → Code Unit
  | [] => return ()
  | fd :: fds => do
    match ← ofile fd with
    | none => exit_files fds
    | some f => do
      fileclose f
      cmd (.fdclear fd)
      exit_files fds

def exit : Code Int := do
  exit_files (List.finRange NOFILE)
  begin_op
  iput (← cwd)
  end_op
  cmd (.setCwd none)
  cmd .zombie
  return 0

/-! ## All calls -/

/-- The calls that concern files, with their arguments. -/
inductive Call where
  | sys_open (past : Bytes) (path : Option Bytes) (omode : Nat)
  | sys_link (old new : Option Bytes)
  | sys_unlink (path : Option Bytes)
  | sys_mkdir (path : Option Bytes)
  | sys_mknod (major minor : Nat) (path : Option Bytes)
  | sys_symlink (past : Bytes) (target path : Option Bytes)
  | sys_chdir (path : Option Bytes)
  | sys_exec (args pagetable : Bool) (mem : Nat → Bool) (rest : Int) (path : Option Bytes)
  | sys_dup (fd : Option (Fin NOFILE))
  | sys_pipe (page : Option Nat) (args copied : Bool)
  | sys_close (fd : Option (Fin NOFILE))
  | sys_read (cp : Nat → Nat → Bool) (other : Int) (fd : Option (Fin NOFILE)) (addr n : Nat)
  | sys_write (cp : Copyin) (other : Int) (fd : Option (Fin NOFILE)) (addr : Nat) (n : Int)
  | fork (mem : Bool)
  | exit
  /-- `wait` finds a child that has exited. -/
  | wait (np : Pid)

/-- The program of a call. -/
def Call.code (sb : Superblock) : Call → Code Int
  | .sys_open past path omode => Sys.sys_open sb past path omode
  | .sys_link old new => Sys.sys_link old new
  | .sys_unlink path => Sys.sys_unlink path
  | .sys_mkdir path => Sys.sys_mkdir sb path
  | .sys_mknod major minor path => Sys.sys_mknod sb major minor path
  | .sys_symlink past target path => Sys.sys_symlink sb past target path
  | .sys_chdir path => Sys.sys_chdir path
  | .sys_exec args pagetable mem rest path => Sys.sys_exec args pagetable mem rest path
  | .sys_dup fd => Sys.sys_dup fd
  | .sys_pipe page args copied => Sys.sys_pipe page args copied
  | .sys_close fd => Sys.sys_close fd
  | .sys_read cp other fd addr n => Sys.sys_read cp other fd addr (n % 2 ^ 32)
  | .sys_write cp other fd addr n => Sys.sys_write cp other fd addr n
  | .fork mem => Sys.fork mem
  | .exit => Sys.exit
  | .wait np => do
    cmd (.reap np)
    return (np.val : Int)

end NoviceKernel.Sys
