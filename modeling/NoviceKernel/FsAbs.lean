import NoviceKernel.FsTable
import NoviceKernel.FsFrame
import NoviceKernel.FsCmd

/-! # The kernel without blocks

    In the abstract kernel an inode number has a node: the fields of the inode
    and its bytes.  Blocks, the bitmap and the indirect blocks are gone.

    * `view`: the abstract kernel that a kernel stands for.
    * `Abs.Guard`: when a command may be executed.
    * `Abs.Step`: what a command does.
    * `exec_refines`: a command whose guard holds keeps the table in order, and
      its effect, seen through `view`, is `Abs.Step`.
    * `Abs.Frame`, `exec_frames`: the part of the effect that does not depend on
      what is on the disk; it needs no guard. -/

namespace NoviceKernel.Sys

open FS Hoare Function

/-! ## State -/

/-- An entry of the inode table; `bare` says that the inode has no blocks. -/
@[ext] structure Entry where
  inum : Nat
  ref : Nat
  valid : Bool
  attr : Attr
  bare : Bool

@[ext] structure Abs where
  node : Nat → Option Node
  inode : Fin NINODE → Entry
  lock : Fin NINODE → Option Pid
  ftable : Fin NFILE → File
  pipe : Nat → Option PipeEnds
  proc : Pid → Proc

def Entry.of (x : Inode) : Entry where
  inum := x.inum
  ref := x.ref
  valid := x.valid
  attr := x.din.attr
  bare := decide (x.din.size = 0 ∧ x.din.addrs = fun _ => 0)

/-- The abstract kernel that `s` stands for. -/
def view (sb : Superblock) (s : Kernel) : Abs where
  node := node sb s.fs.blocks
  inode := Entry.of ∘ s.fs.itable
  lock := s.lock
  ftable := s.ftable
  pipe := s.pipe
  proc := s.proc

namespace Abs

abbrev setNode (a : Abs) (i : Nat) (nd : Option Node) : Abs :=
  { a with node := update a.node i nd }

abbrev setEntry (a : Abs) (ip : Fin NINODE) (x : Entry) : Abs :=
  { a with inode := update a.inode ip x }

abbrev setLock (a : Abs) (ip : Fin NINODE) (holder : Option Pid) : Abs :=
  { a with lock := update a.lock ip holder }

abbrev setFile (a : Abs) (f : Fin NFILE) (x : File) : Abs :=
  { a with ftable := update a.ftable f x }

abbrev setPipe (a : Abs) (pi : Nat) (x : Option PipeEnds) : Abs :=
  { a with pipe := update a.pipe pi x }

abbrev setProc (a : Abs) (p : Pid) (x : Proc) : Abs :=
  { a with proc := update a.proc p x }

section

variable {a : Abs} {p q : Pid} {i j : Nat} {nd : Option Node} {x : Proc}

@[simp] theorem proc_setProc_self : (a.setProc p x).proc p = x := update_self ..

@[simp] theorem proc_setProc_of_ne (h : q ≠ p) : (a.setProc p x).proc q = a.proc q :=
  update_of_ne h ..

end

/-- The inode number of an entry. -/
abbrev inum (a : Abs) (ip : Fin NINODE) : Nat := (a.inode ip).inum

/-- The node of an entry. -/
abbrev nodeOf (a : Abs) (ip : Fin NINODE) : Option Node := a.node (a.inum ip)

/-- The bytes of an entry's inode; a free one has none. -/
def data (a : Abs) (ip : Fin NINODE) : Bytes := ((a.nodeOf ip).map Node.data).getD []

/-- The entry can be used: it is referenced and has been read. -/
structure Held (a : Abs) (ip : Fin NINODE) : Prop where
  ref : 0 < (a.inode ip).ref
  valid : (a.inode ip).valid = true

end Abs

/-- The fields of an inode are 16-bit numbers. -/
structure InRange (m : Attr) : Prop where
  type : m.type < 2 ^ 16
  major : m.major < 2 ^ 16
  minor : m.minor < 2 ^ 16
  nlink : m.nlink < 2 ^ 16

/-! ## Commands -/

namespace Abs

/-- The type stays, or is cleared when there are no blocks. -/
def KeepsType (x : Entry) (m : Attr) : Prop :=
  m.type = x.attr.type ∨ m.type = 0 ∧ x.bare = true

/-- When a command keeps the inode table in order. -/
def Guard (sb : Superblock) (a : Abs) : Cmd → Prop
  | .iget inum => inum < sb.ninodes
  | .idup ip | .iputLast ip | .invalidate ip | .unref ip => 0 < (a.inode ip).ref
  | .ialloc type inum => inum < sb.ninodes ∧ 0 < type ∧ type < 2 ^ 16
  | .size ip | .iupdate ip => a.Held ip
  | .modify ip f => a.Held ip ∧ (InRange (a.inode ip).attr → InRange (f (a.inode ip).attr)) ∧
      KeepsType (a.inode ip) (f (a.inode ip).attr)
  | .itrunc ip => a.Held ip ∧ (a.inode ip).attr.type ≠ 0
  | .readi _ ip _ off n => a.Held ip ∧ off < 2 ^ 32 ∧ n < 2 ^ 32
  | .writei _ _ ip _ off n => a.Held ip ∧ (a.inode ip).attr.type ≠ 0 ∧ off < 2 ^ 32 ∧ n < 2 ^ 32
  | _ => True

variable (a : Abs)

/-- The entry that `iget` returns for the inode number `i` becomes `x`. -/
structure Gets (i : Nat) (ip : Fin NINODE) (x : Entry) : Prop where
  inum : x.inum = i
  old : 0 < (a.inode ip).ref → x = { a.inode ip with ref := (a.inode ip).ref + 1 }
  new : (a.inode ip).ref = 0 → x.ref = 1 ∧ x.valid = false ∧
    ∀ jp, 0 < (a.inode jp).ref → (a.inode jp).inum ≠ i

/-- The entry after `ilock` has read it. -/
def Reads (ip : Fin NINODE) (x : Entry) : Prop :=
  if (a.inode ip).valid then x = a.inode ip
  else ∃ nd bare, a.nodeOf ip = some nd ∧
    x = { a.inode ip with valid := true, attr := nd.attr, bare := bare }

/-- `iput` finds the last reference to an inode without links. -/
abbrev Last (x : Entry) : Prop := x.ref = 1 ∧ x.valid = true ∧ x.attr.nlink = 0

/-- What `writei` does and returns. -/
def Writes (cp : Copyin) (ip : Fin NINODE) (src off n : Nat) (r : Int) (a' : Abs) : Prop :=
  if (a.data ip).length < off ∨ MAXFILE * BSIZE < off + n then r = -1 ∧ a' = a
  else ∃ data bare, a' = (a.setNode (a.inum ip) (some ⟨(a.inode ip).attr, data⟩)).setEntry ip
      { a.inode ip with bare := bare } ∧
    ∀ bytes, src < 2 ^ 64 → Delivers cp src n bytes →
      r = n ∧ data = overwrite (a.data ip) off ((List.range n).map bytes)

/-- The bytes from `off` on that a read of `n` bytes delivers, and their
    number. -/
def readAt (data : Bytes) (off n : Nat) : Int × Bytes :=
  if data.length < off ∨ 2 ^ 32 ≤ off + n then (0, [])
  else (((min (off + n) data.length - off : Nat) : Int), (data.drop off).take n)

/-- What a command of process `p` does. -/
def Step (p : Pid) : (c : Cmd) → Abs → c.Ret → Abs → Prop
  | .panic _, _, _, _ => False
  | .begin_op, a, _, a' | .end_op, a, _, a' => a' = a
  | .iget inum, a, ip, a' => ∃ x, Gets a inum ip x ∧ a' = a.setEntry ip x
  | .idup ip, a, _, a' => a' = a.setEntry ip { a.inode ip with ref := (a.inode ip).ref + 1 }
  | .ilock ip, a, _, a' => 0 < (a.inode ip).ref ∧ a.lock ip = none ∧
      ∃ x, Reads a ip x ∧ a' = (a.setLock ip (some p)).setEntry ip x
  | .iunlock ip, a, _, a' => a.lock ip = some p ∧ a' = a.setLock ip none
  | .iputLast ip, a, last, a' =>
      if Last (a.inode ip) then last = true ∧ a.lock ip = none ∧ a' = a.setLock ip (some p)
      else last = false ∧ a' = a.setEntry ip { a.inode ip with ref := (a.inode ip).ref - 1 }
  | .invalidate ip, a, _, a' => a' = a.setEntry ip { a.inode ip with valid := false }
  | .releasesleep ip, a, _, a' => a' = a.setLock ip none
  | .unref ip, a, _, a' => a' = a.setEntry ip { a.inode ip with ref := (a.inode ip).ref - 1 }
  | .ialloc type inum, a, taken, a' =>
      if a.node inum = none then taken = true ∧ a' = a.setNode inum (some ⟨⟨type, 0, 0, 0⟩, []⟩)
      else taken = false ∧ a' = a
  | .inum ip, a, n, a' => n = a.inum ip ∧ a' = a
  | .attr ip, a, m, a' => m = (a.inode ip).attr ∧ a' = a
  | .size ip, a, n, a' => n = (a.data ip).length ∧ a' = a
  | .modify ip f, a, _, a' => a' = a.setEntry ip { a.inode ip with attr := f (a.inode ip).attr }
  | .iupdate ip, a, _, a' => a' = a.setNode (a.inum ip)
      (if (a.inode ip).attr.type = 0 then none else some ⟨(a.inode ip).attr, a.data ip⟩)
  | .itrunc ip, a, _, a' => a' = (a.setNode (a.inum ip) (some ⟨(a.inode ip).attr, []⟩)).setEntry ip
      { a.inode ip with bare := true }
  | .readi cp ip _ off n, a, r, a' => a' = a ∧
      ((cp = fun _ _ => true) → r = readAt (a.data ip) off n)
  | .writei _ cp ip src off n, a, r, a' => Writes a cp ip src off n r a'
  | .filealloc, a, f, a' =>
      match f with
      | some f => (a.ftable f).ref = 0 ∧ a' = a.setFile f { a.ftable f with ref := 1 }
      | none => a' = a
  | .file f, a, x, a' => x = a.ftable f ∧ a' = a
  | .setFile f ip dev readable writable, a, _, a' =>
      a' = a.setFile f ((a.ftable f).setUp ip dev readable writable)
  | .advance f r, a, _, a' =>
      a' = a.setFile f { a.ftable f with off := ((a.ftable f).off + r) % 2 ^ 32 }
  | .filedup f, a, _, a' =>
      0 < (a.ftable f).ref ∧ a' = a.setFile f { a.ftable f with ref := (a.ftable f).ref + 1 }
  | .filedrop f, a, ff, a' =>
      if 1 < (a.ftable f).ref then
        ff = none ∧ a' = a.setFile f { a.ftable f with ref := (a.ftable f).ref - 1 }
      else (a.ftable f).ref = 1 ∧ ff = some (a.ftable f) ∧
        a' = a.setFile f { a.ftable f with ref := 0, type := .FD_NONE }
  | .kalloc _, a, b, a' =>
      match b with
      | some pi => a.pipe pi = none ∧ a' = a.setPipe pi (some ⟨true, true⟩)
      | none => a' = a
  | .setPipe f pi writable, a, _, a' => a' = a.setFile f ((a.ftable f).setPipe pi writable)
  | .pipeclose pi writable, a, last, a' => ∃ e, a.pipe pi = some e ∧
      last = decide (e.close writable = ⟨false, false⟩) ∧
        a' = a.setPipe pi (some (e.close writable))
  | .kfree pi, a, _, a' => a' = a.setPipe pi none
  | .ofile fd, a, f, a' => f = (a.proc p).ofile fd ∧ a' = a
  | .fdalloc f, a, fd, a' =>
      match fd with
      | some fd => (a.proc p).ofile fd = none ∧
          a' = a.setProc p { a.proc p with ofile := update (a.proc p).ofile fd (some f) }
      | none => a' = a
  | .fdclear fd, a, _, a' =>
      a' = a.setProc p { a.proc p with ofile := update (a.proc p).ofile fd none }
  | .cwd, a, ip, a' => (a.proc p).cwd = some ip ∧ a' = a
  | .setCwd ip, a, _, a' => a' = a.setProc p { a.proc p with cwd := ip }
  | .allocproc, a, np, a' =>
      match np with
      | some np =>
        (a.proc np).state = .UNUSED ∧ a' = a.setProc np { a.proc np with state := .EMBRYO }
      | none => a' = a
  | .freeproc np, a, _, a' => a' = a.setProc np { a.proc np with state := .UNUSED }
  | .giveFile np fd f, a, _, a' =>
      a' = a.setProc np { a.proc np with ofile := update (a.proc np).ofile fd (some f) }
  | .giveCwd np ip, a, _, a' => a' = a.setProc np { a.proc np with cwd := some ip }
  | .runnable np, a, _, a' => a' = a.setProc np { a.proc np with state := .ALIVE }
  | .zombie, a, _, a' => a' = a.setProc p { a.proc p with state := .ZOMBIE }
  | .reap np, a, _, a' => a' = a.setProc np
      (if (a.proc np).state = .ZOMBIE then { a.proc np with state := .UNUSED } else a.proc np)

/-- Any nodes have changed, and of the entry only whether it has blocks. -/
def Touched (ip : Fin NINODE) (a' : Abs) : Prop :=
  ∃ node bare,
    a' = { a with node := node, inode := update a.inode ip { a.inode ip with bare := bare } }

/-- The entry after `ilock` has read something with a type. -/
def Fills (ip : Fin NINODE) (x : Entry) : Prop :=
  if (a.inode ip).valid then x = a.inode ip
  else x.inum = a.inum ip ∧ x.ref = (a.inode ip).ref ∧ x.valid = true ∧ x.attr.type ≠ 0

/-- What a command of process `p` does to the tables, whatever the disk holds. -/
def Frame (p : Pid) : (c : Cmd) → Abs → c.Ret → Abs → Prop
  | .ilock ip, a, _, a' => 0 < (a.inode ip).ref ∧ a.lock ip = none ∧
      ∃ x, Fills a ip x ∧ a' = (a.setLock ip (some p)).setEntry ip x
  | .ialloc _ _, a, _, a' => ∃ node, a' = { a with node := node }
  | .size _, a, _, a' => a' = a
  | .iupdate ip, a, _, a' | .itrunc ip, a, _, a' => Touched a ip a'
  | .readi _ ip _ _ _, a, _, a' => Touched a ip a'
  | .writei _ _ ip _ _ _, a, _, a' => Touched a ip a'
  | c, a, b, a' => Step p c a b a'

/-- The command finds an inode without a type. -/
def NoType : Cmd → Prop
  | .panic msg => msg = "ilock: no type"
  | .ilock ip => 0 < (a.inode ip).ref ∧ (a.inode ip).valid = false ∧ a.nodeOf ip = none
  | _ => False

end Abs

/-! ## Refinement -/

section Refines

variable {sb : Superblock} {p : Pid} {s : Kernel} {ip : Fin NINODE} {α : Type}
  {blocks : Nat → Block} {c : Cmd} {i : Nat} {inum : Nat} {x : FsM α}

@[simp] theorem wp_onFs {Q : α → Kernel → Prop} {E : Stop → Kernel → Prop} :
    wp (onFs x) Q E s ↔
      wp x (fun b fs => Q b { s with fs := fs }) (fun e fs => E e { s with fs := fs }) s.fs := by
  unfold wp onFs
  cases x s.fs <;> rfl

/-- A node, if the inode is one of the disk's. -/
theorem node_eq (hi : i < sb.ninodes) :
    node sb blocks i = if (dinode sb blocks i).type = 0 then none
      else some ⟨(dinode sb blocks i).attr, nodeData sb blocks i⟩ := by
  split
  · next h0 => exact node_eq_none h0
  · next hne => exact node_of_type hi hne

open Entry

/-- The view after a change of one entry. -/
theorem view_setInode {x : Inode} :
    view sb { s with fs := ⟨s.fs.blocks, update s.fs.itable ip x⟩ } =
      (view sb s).setEntry ip (of x) := by
  unfold view
  dsimp only
  rw [Function.comp_update]

/-- The view after a change of one node. -/
theorem view_blocks (h : OnlyNode sb i s.fs.blocks blocks) :
    view sb { s with fs := ⟨blocks, s.fs.itable⟩ } = (view sb s).setNode i (node sb blocks i) := by
  unfold view
  dsimp only
  congr 1
  funext j
  by_cases hj : j = i
  · rw [hj, update_self]
  · rw [update_of_ne hj, h.node hj]

/-- The view after an operation on an open inode. -/
theorem view_wrote {y : Dinode} {data : Bytes} {fs' : Fs} (h : Table.Wrote sb ip y data s.fs fs')
    (hi : (s.fs.itable ip).inum < sb.ninodes) (ht : y.type ≠ 0) :
    view sb { s with fs := fs' } =
      ((view sb s).setNode ((view sb s).inum ip) (some ⟨y.attr, data⟩)).setEntry ip
        { (view sb s).inode ip with
          attr := y.attr, bare := (of { s.fs.itable ip with din := y }).bare } := by
  obtain ⟨blocks, itable⟩ := fs'
  have hit := h.itable
  dsimp only at hit
  subst hit
  have hnode : node sb blocks (s.fs.itable ip).inum = some ⟨y.attr, data⟩ := by
    have hself := h.self
    have hdata := h.data
    dsimp only at hself hdata
    rw [node_of_type hi (by rw [hself]; exact ht), hself, hdata]
  have := view_blocks (s := { s with fs := ⟨s.fs.blocks, update s.fs.itable ip
    { s.fs.itable ip with din := y }⟩ }) h.only
  rw [view_setInode] at this
  rw [this, hnode]
  rfl

theorem view_held (h : (view sb s).Held ip) : FS.Held ip s.fs := ⟨h.ref, h.valid⟩

/-- The bytes of an open inode. -/
theorem view_data (h : Table sb s.fs) (hh : (view sb s).Held ip) :
    (view sb s).data ip = nodeData sb s.fs.blocks (s.fs.itable ip).inum := by
  have hlt := h.inum_lt ip hh.ref
  show ((node sb s.fs.blocks (s.fs.itable ip).inum).map Node.data).getD [] = _
  rw [node_eq hlt]
  split
  · next h0 =>
    -- a free inode has no bytes: its copy in the table has none
    have hag := h.agrees ip hh.ref hh.valid
    have hx : (s.fs.itable ip).din.type = 0 := by
      by_contra hx
      exact hx ((hag.type hx).symm.trans h0)
    unfold nodeData
    rw [← hag.size, (hag.empty hx).1]
    rfl
  · rfl

theorem view_size (h : Table sb s.fs) (hh : (view sb s).Held ip) :
    ((view sb s).data ip).length = (s.fs.itable ip).din.size := by
  rw [view_data h hh, (h.agrees ip hh.ref hh.valid).size]
  unfold nodeData
  rw [List.length_map, List.length_range]

/-- What a command has to do: keep the table in order, and take the abstract
    step. -/
abbrev Refined (sb : Superblock) (p : Pid) (c : Cmd) (s : Kernel) (b : c.Ret) (s' : Kernel) :
    Prop :=
  Table sb s'.fs ∧ Abs.Step p c (view sb s) b (view sb s')

/-- How a command can stop. -/
abbrev StopsOk (sb : Superblock) (c : Cmd) (s : Kernel) (e : Stop) : Prop :=
  e = .panic "ilock: no type" → (view sb s).NoType c

theorem iget_steps :
    wp (exec sb p (.iget inum))
      (fun ip s' => Got inum s.fs ip s'.fs ∧ Abs.Step p (.iget inum) (view sb s) ip (view sb s'))
      (fun e _ => StopsOk sb (.iget inum) s e) s := by
  rw [exec, wp_onFs]
  refine (wp_iget s.fs).mono ?_ ?_
  · rintro ip ⟨blocks, itable⟩ hgot
    refine ⟨hgot, ?_⟩
    obtain ⟨hbl, x, hit, hinum, href, hold, hnew⟩ := hgot
    dsimp only at hbl hit
    subst hbl hit
    refine ⟨of x, ⟨hinum, fun hr => ?_, fun h0 => ?_⟩, view_setInode⟩
    · obtain ⟨hi, hv, hd⟩ := hold hr
      unfold of
      rw [hinum, href, hv, hd, ← hi]
      rfl
    · obtain ⟨hv, hfresh⟩ := hnew h0
      have h0' : (s.fs.itable ip).ref = 0 := h0
      exact ⟨by show x.ref = 1; rw [href, h0'], hv, hfresh⟩
  · intro e _ he hmsg
    exact absurd (he.symm.trans hmsg) (by decide)

theorem iget_refines (h : Table sb s.fs) (hg : inum < sb.ninodes) :
    wp (exec sb p (.iget inum)) (Refined sb p (.iget inum) s)
      (fun e _ => StopsOk sb (.iget inum) s e) s :=
  iget_steps.post fun _ _ hs => ⟨h.got hg hs.1, hs.2⟩

/-- `ilock` takes the lock, and reads an inode that is not valid. -/
theorem ilock_steps :
    wp (exec sb p (.ilock ip))
      (fun _ s' => 0 < (s.fs.itable ip).ref ∧ s.lock ip = none ∧
        ((s.fs.itable ip).valid = true ∧ s' = { s with lock := update s.lock ip (some p) } ∨
        ¬ (s.fs.itable ip).valid = true ∧
          (dinode sb s.fs.blocks (s.fs.itable ip).inum).type ≠ 0 ∧
          s' = { s with
            lock := update s.lock ip (some p)
            fs := ⟨s.fs.blocks, update s.fs.itable ip { s.fs.itable ip with
              valid := true, din := dinode sb s.fs.blocks (s.fs.itable ip).inum }⟩ }))
      (fun e _ => StopsOk sb (.ilock ip) s e) s := by
  rw [exec, ilockBy, wp_bind, wp_get]
  split
  · exact fun hmsg => absurd hmsg (by decide)
  · next href =>
    rw [wp_bind, acquiresleep, wp_bind, wp_get]
    split
    · exact fun hmsg => absurd hmsg (by decide)
    · next hfree =>
      rw [setLock, wp_modify, wp_onFs, FS.ilock, wp_bind, wp_get]
      dsimp only
      rw [if_neg href]
      have hpos : 0 < (s.fs.itable ip).ref := by omega
      split
      · next hv => exact ⟨hpos, hfree, .inl ⟨hv, rfl⟩⟩
      · next hv =>
        rw [wp_bind, FS.wp_bread, wp_bind, wp_setInode]
        split
        · next h0 => exact fun _ => ⟨hpos, (Bool.not_eq_true _).mp hv, node_eq_none h0⟩
        · next h0 => exact ⟨hpos, hfree, .inr ⟨hv, h0, rfl⟩⟩

theorem ilock_refines (h : Table sb s.fs) :
    wp (exec sb p (.ilock ip)) (Refined sb p (.ilock ip) s)
      (fun e _ => StopsOk sb (.ilock ip) s e) s := by
  refine ilock_steps.post ?_
  rintro _ s' ⟨hpos, hfree, ⟨hv, rfl⟩ | ⟨hv, h0, rfl⟩⟩
  · -- already read
    refine ⟨h, hpos, hfree, (view sb s).inode ip, by rw [Abs.Reads, if_pos (by exact hv)], ?_⟩
    rw [Abs.setEntry, update_eq_self]
    rfl
  · refine ⟨h.load hpos h0, hpos, hfree, of { s.fs.itable ip with
      valid := true, din := dinode sb s.fs.blocks (s.fs.itable ip).inum }, ?_, ?_⟩
    · rw [Abs.Reads, if_neg (by exact hv)]
      exact ⟨_, _, node_of_type (h.inum_lt ip hpos) h0, rfl⟩
    · exact view_setInode (s := { s with lock := update s.lock ip (some p) })

theorem iputLast_steps :
    wp (exec sb p (.iputLast ip))
      (fun last s' => (s'.fs = s.fs ∨ s'.fs = ⟨s.fs.blocks, update s.fs.itable ip
          { s.fs.itable ip with ref := (s.fs.itable ip).ref - 1 }⟩) ∧
        Abs.Step p (.iputLast ip) (view sb s) last (view sb s'))
      (fun e _ => StopsOk sb (.iputLast ip) s e) s := by
  rw [exec, iputLastBy, wp_bind, wp_get]
  dsimp only
  split
  · next hlast =>
    rw [wp_bind, acquiresleep, wp_bind, wp_get]
    split
    · exact fun hmsg => absurd hmsg (by decide)
    · next hfree =>
      rw [setLock, wp_modify]
      refine ⟨.inl rfl, ?_⟩
      rw [Abs.Step, if_pos (by exact hlast)]
      exact ⟨rfl, hfree, rfl⟩
  · next hlast =>
    rw [wp_bind, wp_onFs, FS.unref, wp_bind, wp_get, wp_setInode]
    refine ⟨.inr rfl, ?_⟩
    rw [Abs.Step, if_neg (by exact hlast)]
    exact ⟨rfl, view_setInode⟩

theorem iputLast_refines (h : Table sb s.fs) (hg : 0 < (s.fs.itable ip).ref) :
    wp (exec sb p (.iputLast ip)) (Refined sb p (.iputLast ip) s)
      (fun e _ => StopsOk sb (.iputLast ip) s e) s := by
  refine iputLast_steps.post ?_
  rintro last s' ⟨hfs, hstep⟩
  refine ⟨?_, hstep⟩
  rcases hfs with hfs | hfs
  · rw [hfs]
    exact h
  · rw [hfs]
    exact h.setEntry hg rfl fun _ hv => h.agrees ip hg hv

theorem ialloc_refines {type inum : Nat} (hsb : sb.Ok) (h : Table sb s.fs)
    (hg : inum < sb.ninodes ∧ 0 < type ∧ type < 2 ^ 16) :
    wp (exec sb p (.ialloc type inum)) (Refined sb p (.ialloc type inum) s)
      (fun e _ => StopsOk sb (.ialloc type inum) s e) s := by
  obtain ⟨hi, hpos, hlt⟩ := hg
  have hnode : (view sb s).node inum = none ↔ (dinode sb s.fs.blocks inum).type = 0 := by
    show node sb s.fs.blocks inum = none ↔ _
    rw [node_eq hi]
    split
    · next h0 => exact iff_of_true rfl h0
    · next hne => exact iff_of_false (fun hc => by cases hc) hne
  rw [exec, wp_onFs, iallocAt, wp_bind, FS.wp_bread]
  split
  · next h0 =>
    rw [wp_bind, wp_writeBlock]
    obtain ⟨ht, hon, hself⟩ := h.alloc type hsb hi h0
    refine ⟨ht, ?_⟩
    rw [Abs.Step, if_pos (hnode.mpr h0)]
    refine ⟨rfl, ?_⟩
    have hview := view_blocks (s := s) hon
    have hdata : nodeData sb (s.fs.allocInode sb inum type).blocks inum = [] := by
      unfold nodeData
      rw [hself]
      rfl
    rw [node_of_type hi (by rw [hself, Nat.mod_eq_of_lt hlt]; exact hpos.ne'), hdata, hself,
      Nat.mod_eq_of_lt hlt] at hview
    exact hview
  · next hne =>
    refine ⟨h, ?_⟩
    rw [Abs.Step, if_neg (fun hc => hne (hnode.mp hc))]
    exact ⟨rfl, rfl⟩

theorem modify_refines {f : Attr → Attr} (h : Table sb s.fs)
    (hg : (view sb s).Guard sb (.modify ip f)) :
    wp (exec sb p (.modify ip f)) (Refined sb p (.modify ip f) s)
      (fun e _ => StopsOk sb (.modify ip f) s e) s := by
  obtain ⟨hh, hr, hk⟩ := hg
  have hd := (h.agrees ip hh.ref hh.valid).range
  have hm := hr ⟨hd.type, hd.major, hd.minor, hd.nlink⟩
  rw [exec, wp_onFs, wp_modifyDin]
  refine ⟨h.modifyDin (view_held hh) ⟨hm.type, hm.major, hm.minor, hm.nlink, hd.size, hd.addrs⟩ ?_,
    view_setInode⟩
  rcases hk with he | ⟨h0, hb⟩
  · exact .inl he
  · exact .inr ⟨h0, of_decide_eq_true hb⟩

section

variable (hsb : sb.Ok) (h : Table sb s.fs) (hh : (view sb s).Held ip)
include hsb h hh

theorem iupdate_refines :
    wp (exec sb p (.iupdate ip)) (Refined sb p (.iupdate ip) s)
      (fun e _ => StopsOk sb (.iupdate ip) s e) s := by
  obtain ⟨ht, hon, hself, hdata⟩ := h.iupdate hsb (view_held hh)
  rw [exec, wp_onFs, FS.iupdate, wp_bind, wp_get, wp_bind, FS.wp_bread, wp_writeBlock]
  refine ⟨ht, (view_blocks hon).trans ?_⟩
  have hnode : node sb (s.fs.iupdated sb ip).blocks (s.fs.itable ip).inum =
      if (s.fs.itable ip).din.type = 0 then none
      else some ⟨(s.fs.itable ip).din.attr, (view sb s).data ip⟩ := by
    rw [node_eq (h.inum_lt ip hh.ref), hself, hdata, view_data h hh]
  rw [hnode]
  rfl

theorem itrunc_refines (ht : (s.fs.itable ip).din.type ≠ 0) :
    wp (exec sb p (.itrunc ip)) (Refined sb p (.itrunc ip) s)
      (fun e _ => StopsOk sb (.itrunc ip) s e) s := by
  rw [exec, wp_onFs]
  refine (h.itrunc hsb (view_held hh) ht).post ?_
  intro _ fs' hw
  have hbare : (of { s.fs.itable ip with din := (s.fs.itable ip).din.truncated }).bare = true := by
    unfold of
    rw [decide_eq_true_iff]
    exact ⟨rfl, rfl⟩
  have hview := view_wrote hw (h.inum_lt ip hh.ref) ht
  rw [hbare] at hview
  exact ⟨hw.table, hview⟩

omit hsb h hh in
theorem readi_refines {cp : Nat → Nat → Bool} {dst off n : Nat} (h : Table sb s.fs)
    (hh : (view sb s).Held ip) (hoff : off < 2 ^ 32) (hn : n < 2 ^ 32) :
    wp (exec sb p (.readi cp ip dst off n)) (Refined sb p (.readi cp ip dst off n) s)
      (fun e _ => StopsOk sb (.readi cp ip dst off n) s e) s := by
  have hkernel : (cp = fun _ _ => true) →
      FS.readi sb cp ip dst off n s.fs = .ok (Abs.readAt ((view sb s).data ip) off n) s.fs := by
    rintro rfl
    unfold Abs.readAt
    rw [view_size h hh]
    split
    · next hbad => exact readi_rejects hoff hn hbad
    · next hin => rw [h.readi_kernel (view_held hh) (by omega) (by omega), view_data h hh]
  rw [exec, wp_onFs]
  have hread : wp (FS.readi sb cp ip dst off n) (fun _ s' => s' = s.fs) (fun _ _ => False) s.fs :=
    h.readi (view_held hh) hoff hn
  obtain ⟨r, fs', hrun, rfl⟩ := hread.returns
  unfold wp
  rw [hrun]
  refine ⟨h, rfl, fun hcp => ?_⟩
  have := (hkernel hcp).symm.trans hrun
  exact (EStateM.Result.ok.inj this).1.symm

theorem writei_refines {user : Bool} {cp : Copyin} {src off n : Nat}
    (ht : (s.fs.itable ip).din.type ≠ 0) (hn : n < 2 ^ 32) :
    wp (exec sb p (.writei user cp ip src off n)) (Refined sb p (.writei user cp ip src off n) s)
      (fun e _ => StopsOk sb (.writei user cp ip src off n) s e) s := by
  have hM : MAXFILE * BSIZE < 2 ^ 32 := by decide
  have hsz := (h.mapped (view_held hh)).size_le
  rw [exec, wp_onFs]
  by_cases hbad : (s.fs.itable ip).din.size < off ∨ MAXFILE * BSIZE < off + n
  · -- a write that is refused
    have hr : Refined sb p (.writei user cp ip src off n) s (-1) s := by
      refine ⟨h, ?_⟩
      rw [Abs.Step, Abs.Writes, view_size h hh, if_pos hbad]
      exact ⟨rfl, rfl⟩
    rw [FS.writei, wp_bind, wp_get]
    split
    · exact hr
    · next h1 =>
      split
      · exact hr
      · next h2 => omega
  · refine (h.writei hsb (view_held hh) ht (by omega) (by omega)).mono ?_ ?_
    · rintro r fs' ⟨size, addrs, data, hw, hfull⟩
      refine ⟨hw.table, ?_⟩
      rw [Abs.Step, Abs.Writes, view_size h hh, if_neg hbad, view_data h hh]
      have hview := view_wrote hw (h.inum_lt ip hh.ref) ht
      exact ⟨data, _, hview, hfull⟩
    · intro e _ he hmsg
      exact absurd (he.symm.trans hmsg) (by decide)

end

/-- The commands that do not use the file system. -/
def Cmd.Simple : Cmd → Prop
  | .iget _ | .idup _ | .ilock _ | .iputLast _ | .invalidate _ | .unref _ | .ialloc _ _ => False
  | .size _ | .modify _ _ | .iupdate _ | .itrunc _ | .readi _ _ _ _ _ | .writei _ _ _ _ _ _ => False
  | _ => True

theorem exec_simple (hc : c.Simple) :
    wp (exec sb p c) (fun b s' => s'.fs = s.fs ∧ Abs.Step p c (view sb s) b (view sb s'))
      (fun e _ => StopsOk sb c s e) s := by
  cases c with
  | panic msg =>
    exact fun hmsg => Stop.panic.inj hmsg
  | begin_op => exact ⟨rfl, rfl⟩
  | end_op => exact ⟨rfl, rfl⟩
  | iunlock ip =>
    rw [exec, iunlockBy, wp_bind, wp_get]
    split
    · exact fun hmsg => absurd hmsg (by decide)
    · next hc => exact ⟨rfl, by_contra fun hne => hc (.inl hne), rfl⟩
  | releasesleep ip => exact ⟨rfl, rfl⟩
  | inum ip => exact ⟨rfl, rfl, rfl⟩
  | attr ip => exact ⟨rfl, rfl, rfl⟩
  | filealloc =>
    rw [exec, fileallocFree, wp_bind, wp_get]
    split
    · next f hf =>
      have h0 := List.find?_some hf
      rw [decide_eq_true_iff] at h0
      exact ⟨rfl, h0, rfl⟩
    · exact ⟨rfl, rfl⟩
  | file f => exact ⟨rfl, rfl, rfl⟩
  | setFile f ip dev readable writable => exact ⟨rfl, rfl⟩
  | advance f r => exact ⟨rfl, rfl⟩
  | filedup f =>
    rw [exec, filedupRef, wp_bind, wp_get]
    dsimp only
    split
    · exact fun hmsg => absurd hmsg (by decide)
    · next hc => exact ⟨rfl, Nat.not_lt.mp hc, rfl⟩
  | filedrop f =>
    rw [exec, filedropRef, wp_bind, wp_get]
    dsimp only
    split
    · exact fun hmsg => absurd hmsg (by decide)
    · next hc =>
      split
      · next h1 =>
        refine ⟨rfl, ?_⟩
        rw [Abs.Step, if_pos (by exact h1)]
        exact ⟨rfl, rfl⟩
      · next h1 =>
        refine ⟨rfl, ?_⟩
        rw [Abs.Step, if_neg (by exact h1)]
        exact ⟨show (s.ftable f).ref = 1 by omega, rfl, rfl⟩
  | kalloc page =>
    cases page with
    | none => exact ⟨rfl, rfl⟩
    | some pi =>
      rw [exec, kallocPipe, wp_bind, wp_get]
      split
      · exact fun hmsg => absurd hmsg (by decide)
      · next hnone => exact ⟨rfl, hnone, rfl⟩
  | setPipe f pi writable => exact ⟨rfl, rfl⟩
  | pipeclose pi writable =>
    rw [exec, pipecloseEnd, wp_bind, wp_get]
    split
    · exact fun hmsg => absurd hmsg (by decide)
    · next e he => exact ⟨rfl, e, he, rfl, rfl⟩
  | kfree pi => exact ⟨rfl, rfl⟩
  | ofile fd => exact ⟨rfl, rfl, rfl⟩
  | fdalloc f =>
    rw [exec, fdallocFree, wp_bind, wp_get]
    dsimp only
    split
    · next fd hfd =>
      have h0 := List.find?_some hfd
      rw [decide_eq_true_iff] at h0
      exact ⟨rfl, h0, rfl⟩
    · exact ⟨rfl, rfl⟩
  | fdclear fd => exact ⟨rfl, rfl⟩
  | cwd =>
    rw [exec, cwdOf, wp_bind, wp_get]
    split
    · next ip hip => exact ⟨rfl, hip, rfl⟩
    · exact fun hmsg => absurd hmsg (by decide)
  | setCwd ip => exact ⟨rfl, rfl⟩
  | allocproc =>
    rw [exec, allocprocFree, wp_bind, wp_get]
    split
    · next q hq =>
      have h0 := List.find?_some hq
      rw [decide_eq_true_iff] at h0
      exact ⟨rfl, h0, rfl⟩
    · exact ⟨rfl, rfl⟩
  | freeproc np => exact ⟨rfl, rfl⟩
  | giveFile np fd f => exact ⟨rfl, rfl⟩
  | giveCwd np ip => exact ⟨rfl, rfl⟩
  | runnable np => exact ⟨rfl, rfl⟩
  | zombie => exact ⟨rfl, rfl⟩
  | reap np => exact ⟨rfl, rfl⟩
  | iget _ | idup _ | ilock _ | iputLast _ | invalidate _ | unref _ | ialloc _ _
  | size _ | modify _ _ | iupdate _ | itrunc _ | readi _ _ _ _ _ | writei _ _ _ _ _ _ =>
    exact hc.elim

/-- **A command refines its abstract step.** -/
theorem exec_refines (hsb : sb.Ok) (h : Table sb s.fs) (hg : (view sb s).Guard sb c) :
    wp (exec sb p c) (Refined sb p c s) (fun e _ => StopsOk sb c s e) s := by
  have hsimple : c.Simple → wp (exec sb p c) (Refined sb p c s)
      (fun e _ => StopsOk sb c s e) s := by
    intro hc
    refine (exec_simple hc).post ?_
    rintro b s' ⟨hfs, hstep⟩
    exact ⟨by rw [hfs]; exact h, hstep⟩
  cases c with
  | iget inum => exact iget_refines h hg
  | idup ip =>
    exact ⟨h.setEntry hg rfl fun _ hv => h.agrees ip hg hv, view_setInode⟩
  | ilock ip => exact ilock_refines h
  | iputLast ip => exact iputLast_refines h hg
  | invalidate ip => exact ⟨h.setEntry hg rfl (fun _ hv => by cases hv), view_setInode⟩
  | unref ip => exact ⟨h.setEntry hg rfl fun _ hv => h.agrees ip hg hv, view_setInode⟩
  | ialloc type inum => exact ialloc_refines hsb h hg
  | size ip => exact ⟨h, (view_size h hg).symm, rfl⟩
  | modify ip f => exact modify_refines h hg
  | iupdate ip => exact iupdate_refines hsb h hg
  | itrunc ip => exact itrunc_refines hsb h hg.1 hg.2
  | readi cp ip dst off n => exact readi_refines h hg.1 hg.2.1 hg.2.2
  | writei user cp ip src off n => exact writei_refines hsb h hg.1 hg.2.1 hg.2.2.2
  | _ => exact hsimple trivial

/-- An operation on an inode, seen from the tables. -/
theorem touches_frames (hx : Touches ip x) :
    wp (onFs x) (fun _ s' => (view sb s).Touched ip (view sb s')) (fun _ _ => True) s := by
  rw [wp_onFs]
  refine (hx s.fs).post ?_
  rintro b ⟨blocks, itable⟩ ⟨din, hit, hattr⟩
  dsimp only at hit
  subst hit
  refine ⟨node sb blocks, (of { s.fs.itable ip with din := din }).bare, ?_⟩
  have hentry : of { s.fs.itable ip with din := din } = { (view sb s).inode ip with
      bare := (of { s.fs.itable ip with din := din }).bare } := by
    unfold of
    dsimp only
    rw [hattr]
    rfl
  have hview : view sb
    { s with fs := ⟨blocks, update s.fs.itable ip { s.fs.itable ip with din := din }⟩ } = _ :=
    view_setInode (s := { s with fs := ⟨blocks, s.fs.itable⟩ })
  rw [hentry] at hview
  exact hview

theorem ilock_frames :
    wp (exec sb p (.ilock ip)) (fun _ s' => (view sb s).Frame p (.ilock ip) () (view sb s'))
      (fun _ _ => True) s := by
  refine ilock_steps.mono ?_ fun _ _ _ => trivial
  rintro _ s' ⟨hpos, hfree, ⟨hv, rfl⟩ | ⟨hv, h0, rfl⟩⟩
  · refine ⟨hpos, hfree, (view sb s).inode ip, by rw [Abs.Fills, if_pos (by exact hv)], ?_⟩
    rw [Abs.setEntry, update_eq_self]
    rfl
  · refine ⟨hpos, hfree, of { s.fs.itable ip with
      valid := true, din := dinode sb s.fs.blocks (s.fs.itable ip).inum }, ?_, ?_⟩
    · rw [Abs.Fills, if_neg (by exact hv)]
      exact ⟨rfl, rfl, rfl, h0⟩
    · exact view_setInode (s := { s with lock := update s.lock ip (some p) })

/-- **What a command does to the tables.** -/
theorem exec_frames :
    wp (exec sb p c) (fun b s' => (view sb s).Frame p c b (view sb s')) (fun _ _ => True) s := by
  have hsimple : c.Simple → wp (exec sb p c) (fun b s' => Abs.Step p c (view sb s) b (view sb s'))
      (fun _ _ => True) s :=
    fun hc => (exec_simple hc).mono (fun _ _ hs => hs.2) fun _ _ _ => trivial
  cases c with
  | iget inum => exact iget_steps.mono (fun _ _ hs => hs.2) fun _ _ _ => trivial
  | idup ip => exact view_setInode
  | ilock ip => exact ilock_frames
  | iputLast ip => exact iputLast_steps.mono (fun _ _ hs => hs.2) fun _ _ _ => trivial
  | invalidate ip => exact view_setInode
  | unref ip => exact view_setInode
  | ialloc type inum =>
    rw [exec, wp_onFs, iallocAt, wp_bind, FS.wp_bread]
    split
    · exact ⟨_, rfl⟩
    · exact ⟨_, rfl⟩
  | size ip => exact rfl
  | modify ip f => exact view_setInode
  | iupdate ip => exact touches_frames iupdate_touches
  | itrunc ip => exact touches_frames itrunc_touches
  | readi cp ip dst off n => exact touches_frames readi_touches
  | writei user cp ip src off n => exact touches_frames writei_touches
  | _ => exact hsimple trivial

end Refines

end NoviceKernel.Sys
