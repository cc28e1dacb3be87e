import NoviceKernel.SysRes
import NoviceKernel.Sysfile

/-! # What the calls do with resources

    One rule for every command, and with them one triple for every function of
    `fs.c`, `file.c` and `sysfile.c`: on every path, successful or failing, the
    references and locks that a function took are given back, except for those
    that its result stands for. -/

namespace NoviceKernel.Sys

open FS Program Count Function Nat Res Safe

variable {m : Attr}

/-! ## Resources -/

namespace Res

section

variable {r : Res} {ip jp : Fin NINODE} {h h' : Option Hold}

@[simp] theorem setLock_setLock : (r.setLock ip h).setLock ip h' = r.setLock ip h' := by
  unfold setLock
  rw [update_idem]

theorem setLock_self (hl : r.locks ip = h) : r.setLock ip h = r := by
  unfold setLock
  rw [← hl, update_eq_self]

/-- Taking a lock and releasing it. -/
theorem setLock_none (hl : r.locks ip = none) : (r.setLock ip h).setLock ip none = r := by
  rw [setLock_setLock, setLock_self hl]

@[simp] theorem dropRef_addRef : (r.addRef ip).dropRef ip = r := by
  unfold addRef dropRef
  simp

theorem addRef_dropRef (hpos : 0 < r.refs ip) : (r.dropRef ip).addRef ip = r := by
  unfold addRef dropRef
  dsimp only
  rw [update_self, update_idem, Nat.sub_add_cancel hpos, update_eq_self]

/-- The order of references does not matter. -/
theorem dropRef_addRef_comm (hpos : 0 < r.refs ip) :
    (r.addRef jp).dropRef ip = (r.dropRef ip).addRef jp := by
  by_cases he : ip = jp
  · subst he
    rw [dropRef_addRef, addRef_dropRef hpos]
  · unfold addRef dropRef
    dsimp only
    rw [update_of_ne he, update_of_ne (Ne.symm he), update_comm he]

@[simp] theorem addRef_setLock : (r.setLock ip h).addRef jp = (r.addRef jp).setLock ip h := rfl

@[simp] theorem dropRef_setLock : (r.setLock ip h).dropRef jp = (r.dropRef jp).setLock ip h := rfl

@[simp] theorem locks_addRef : (r.addRef ip).locks = r.locks := rfl

theorem refs_pos_addRef (hpos : 0 < r.refs ip) : 0 < (r.addRef jp).refs ip := by
  by_cases he : ip = jp
  · rw [he, refs_addRef_self]
    exact succ_pos _
  · rwa [refs_addRef_of_ne he]

theorem refs_addRef_pos : 0 < (r.addRef ip).refs ip := by
  rw [refs_addRef_self]
  exact succ_pos _

/-- Every inode that the process has locked, it has a reference to. -/
def Backs (r : Res) : Prop := ∀ ip, r.locks ip ≠ none → 0 < r.refs ip

theorem Backs.of_none (h : r.locks = fun _ => none) : r.Backs :=
  fun ip hl => absurd (congrFun h ip) hl

theorem Backs.addRef (hb : r.Backs) : (r.addRef ip).Backs := fun jp hl => refs_pos_addRef (hb jp hl)

theorem Backs.setLock (hb : r.Backs) (hpos : 0 < r.refs ip) : (r.setLock ip h).Backs := by
  intro jp hl
  by_cases he : jp = ip
  · rw [he]
    exact hpos
  · rw [locks_setLock_of_ne he] at hl
    exact hb jp hl

/-- The process has locked the inode as `ilock` leaves it. -/
def Locked (r : Res) (ip : Fin NINODE) : Prop := ∃ m, m.type ≠ 0 ∧ r.locks ip = some (.of m)

theorem locked_setLock (hm : m.type ≠ 0) : (r.setLock ip (some (.of m))).Locked ip :=
  ⟨m, hm, locks_setLock_self⟩

end

end Res

variable {path : Option Bytes} {cp : Nat → Nat → Bool} {past : Bytes} {other : Int}
  {omode n addr off : Nat}
variable {r' r₁ : Res}

/-- A function, run with the resources `r`, has what its commands need and leaves `Q`. -/
abbrev Uses (sb : Superblock) (t : Prop) {α : Type} (x : Code α) (r : Res) (Q : α → Res → Prop) :
    Prop :=
  Safe (spec sb t) x r Q

/-- The resources are as before. -/
abbrev Same {α : Type} (r : Res) (_ : α) (r' : Res) : Prop := r' = r

section Triples

variable {sb : Superblock} {t : Prop} {α : Type} {r : Res} {ip dp : Fin NINODE} {f : Fin NFILE}
  {h : Hold} {Q : α → Res → Prop} {fds : List (Fin NOFILE)} {k : File → Code α} {mem : Nat → Bool}
  {o : Option (Fin NINODE)} {pi : Nat} {rest : Int} {type major minor : Nat} {v : α}

/-! ## One rule for every command -/

theorem size_lt (h : off < n) (hn : n ≤ MAXFILE * BSIZE) : off + Dirent.SIZE < 2 ^ 32 := by
  have : MAXFILE * BSIZE + Dirent.SIZE < 2 ^ 32 := by decide
  omega

/-- The reference that `dirlookup` took is not the last one. -/
theorem Res.Backs.found (hb : r.Backs) (hl : (r.addRef ip).locks ip ≠ none) :
    1 < (r.addRef ip).refs ip := by
  rw [refs_addRef_self]
  have := hb ip hl
  omega

theorem load_bytes {de : Dirent} : (Dirent.load de.bytes).inum ≤ de.inum := by
  show (UInt8.ofNat de.inum).toNat + 256 * (UInt8.ofNat (de.inum / 256)).toNat ≤ de.inum
  rw [UInt8.toNat_ofNat', UInt8.toNat_ofNat']
  omega

section

variable {k : Unit → Code α} {kn : Nat → Code α} {ki : Fin NINODE → Code α} {km : Attr → Code α}
  {kb : Int × Bytes → Code α} {kv : Int → Code α} {kl : Bool → Code α} {msg : String}
  {i n off type : Nat} {g : Attr → Attr} {bs name path : Bytes} {m : Attr} {parent : Bool}
  (ha : r.alive = true)
include ha

theorem step_panic : Uses sb t (panic msg) r Q :=
  ⟨⟨ha, trivial⟩, fun b => b.elim⟩

theorem step_begin_op (hk : Uses sb t (k ()) r Q) : Uses sb t (begin_op >>= k) r Q :=
  .stepTo ⟨ha, trivial⟩ (fun _ _ hp => hp) fun _ => hk

theorem step_end_op (hk : Uses sb t (k ()) r Q) : Uses sb t (end_op >>= k) r Q :=
  .stepTo ⟨ha, trivial⟩ (fun _ _ hp => hp) fun _ => hk

theorem step_iget (hi : t → i < sb.ninodes) (hk : ∀ ip, Uses sb t (ki ip) (r.addRef ip) Q) :
    Uses sb t (iget i >>= ki) r Q :=
  .stepTo ⟨ha, hi⟩ (fun _ _ hp => hp) hk

theorem step_idup (hpos : 0 < r.refs ip) (hk : Uses sb t (k ()) (r.addRef ip) Q) :
    Uses sb t (idup ip >>= k) r Q :=
  .stepTo ⟨ha, hpos⟩ (fun _ _ hp => hp) fun _ => hk

theorem step_ilock (hb : r.Backed ip) (hk : ∀ m, r.locks ip = none → m.type ≠ 0 → Uses sb t (k ())
    (r.setLock ip (some (.of m))) Q) : Uses sb t (ilock ip >>= k) r Q := by
  refine .step ⟨ha, hb⟩ ?_
  rintro _ _ ⟨hnone, m, hm, rfl⟩
  exact hk m hnone hm

theorem step_iunlock (hl : r.locks ip = some h) (hv : h.valid = true) (hc : h.clean = true)
    (ht : h.attr.type ≠ 0) (hk : Uses sb t (k ()) (r.setLock ip none) Q) :
    Uses sb t (iunlock ip >>= k) r Q :=
  .stepTo ⟨ha, h, hl, hv, hc, ht⟩ (fun _ _ hp => hp) fun _ => hk

theorem step_inum (hb : r.Backed ip) (hk : ∀ n, (t → n < sb.ninodes) → Uses sb t (kn n) r Q) :
    Uses sb t (inum ip >>= kn) r Q := by
  refine .step ⟨ha, hb⟩ ?_
  rintro n _ ⟨hn, rfl⟩
  exact hk n hn

section

variable (hl : r.locks ip = some h) (hv : h.valid = true)
include hl hv

theorem step_attr (hk : Uses sb t (km h.attr) r Q) : Uses sb t (attr ip >>= km) r Q := by
  refine .step ⟨ha, h, hl, hv⟩ ?_
  rintro m _ ⟨hm, rfl⟩
  rw [hm h hl]
  exact hk

theorem step_size (hk : ∀ n, (t → n ≤ MAXFILE * BSIZE) → Uses sb t (kn n) r Q) :
    Uses sb t (size ip >>= kn) r Q := by
  refine .step ⟨ha, h, hl, hv⟩ ?_
  rintro n _ ⟨hn, rfl⟩
  exact hk n hn

theorem step_modify (hr : InRange h.attr → InRange (g h.attr))
    (ht : (g h.attr).type = h.attr.type ∨ (g h.attr).type = 0 ∧ h.bare = true)
    (hk : Uses sb t (k ()) (r.setLock ip (some { h with attr := g h.attr, clean := false })) Q) :
    Uses sb t (modify ip g >>= k) r Q := by
  refine .step ⟨ha, h, hl, hv, hr, ht⟩ ?_
  intro _ r' hp
  rw [show r' = _ from hp h hl]
  exact hk

theorem step_iupdate (hk : Uses sb t (k ()) (r.setLock ip (some { h with clean := true })) Q) :
    Uses sb t (iupdate ip >>= k) r Q := by
  refine .step ⟨ha, h, hl, hv⟩ ?_
  intro _ r' hp
  rw [show r' = _ from hp h hl]
  exact hk

theorem step_itrunc (ht : h.attr.type ≠ 0)
    (hk : Uses sb t (k ()) (r.setLock ip (some { h with clean := true, bare := true })) Q) :
    Uses sb t (itrunc ip >>= k) r Q := by
  refine .step ⟨ha, h, hl, hv, ht⟩ ?_
  intro _ r' hp
  rw [show r' = _ from hp h hl]
  exact hk

/-- A read into kernel memory. -/
theorem step_readi (hlt : t → off < 2 ^ 32 ∧ n < 2 ^ 32)
    (hk : ∀ b : Int × Bytes, (t → h.attr.type = T_DIR → Dirent.SIZE ∣ off → n = Dirent.SIZE →
      b.1 = Dirent.SIZE → (Dirent.load b.2).inum < sb.ninodes) → Uses sb t (kb b) r Q) :
    Uses sb t (readi ip off n >>= kb) r Q := by
  refine .step ⟨ha, ⟨h, hl, hv⟩, hlt⟩ ?_
  rintro b _ ⟨rfl, hb⟩
  exact hk b fun ht hd => hb ht h hl hd rfl

end

/-- A write from kernel memory. -/
theorem step_writei (hl : r.locks ip = some (.of m)) (hm : m.type ≠ 0)
    (hlt : t → off < 2 ^ 32 ∧ n < 2 ^ 32)
    (hdir : t → n = Dirent.SIZE → Dirent.SIZE ∣ off ∧ (Dirent.load bs).inum < sb.ninodes)
    (hk : ∀ v, Uses sb t (kv v) r Q) : Uses sb t (writei ip bs off n >>= kv) r Q := by
  refine .stepTo ⟨ha, hlt, m, hl, hm, ?_⟩ (fun _ _ hp => hp) hk
  intro ht _ hn _
  obtain ⟨hdvd, hi⟩ := hdir ht hn
  subst hn
  refine ⟨hdvd, rfl, Nat.two_pow_pos 64, fun i => bs.getD i 0, ?_, ?_⟩
  · intro i m him
    unfold ofBytes
    have h64 : Dirent.SIZE < 2 ^ 64 := by decide
    rw [Nat.zero_add, Nat.mod_eq_of_lt (by omega)]
  · rw [Dirent.load_congr (d := bs)]
    · exact hi
    · intro i hi
      simp only [List.getD_eq_getElem?_getD, List.getElem?_map]
      rw [List.getElem?_range hi]
      rfl

theorem step_cwd (hk : ∀ ip, r.cwd = some ip → Uses sb t (ki ip) r Q) :
    Uses sb t (cwd >>= ki) r Q := by
  refine .step ⟨ha, trivial⟩ ?_
  rintro ip _ ⟨hcwd, rfl⟩
  exact hk ip hcwd

theorem step_iputLast (hpos : 0 < r.refs ip) (hl : r.locks ip ≠ none → 1 < r.refs ip)
    (hlast : ∀ m, r.locks ip = none → m.type ≠ 0 →
      Uses sb t (kl true) (r.setLock ip (some (.of m))) Q)
    (hdrop : Uses sb t (kl false) (r.dropRef ip) Q) : Uses sb t (iputLast ip >>= kl) r Q := by
  refine .step ⟨ha, hpos, hl⟩ ?_
  intro last r' hp
  cases last with
  | false =>
    rw [show r' = r.dropRef ip from hp]
    exact hdrop
  | true =>
    obtain ⟨hnone, m, hm, rfl⟩ := hp
    exact hlast m hnone hm

theorem step_invalidate (hl : r.locks ip = some h)
    (hk : Uses sb t (k ()) (r.setLock ip (some { h with valid := false })) Q) :
    Uses sb t (cmd (.invalidate ip) >>= k) r Q := by
  refine .step ⟨ha, fun hc => by rw [hl] at hc; cases hc⟩ ?_
  intro _ r' hp
  rw [show r' = _ from hp h hl]
  exact hk

theorem step_releasesleep (hl : r.locks ip = some h) (hv : h.valid = false)
    (hk : Uses sb t (k ()) (r.setLock ip none) Q) : Uses sb t (cmd (.releasesleep ip) >>= k) r Q :=
  .stepTo ⟨ha, h, hl, hv⟩ (fun _ _ hp => hp) fun _ => hk

/-! ## Inodes -/

theorem iput_safe (hpos : 0 < r.refs ip) (hl : r.locks ip ≠ none → 1 < r.refs ip) :
    Uses sb t (iput ip) r fun _ r' => r' = r.dropRef ip := by
  refine step_iputLast ha hpos hl ?_ rfl
  intro m hnone hm
  refine step_itrunc ha locks_setLock_self rfl hm ?_
  rw [setLock_setLock]
  refine step_modify ha locks_setLock_self rfl ?_ (.inr ⟨rfl, rfl⟩) ?_
  · exact fun hr => ⟨Nat.two_pow_pos 16, hr.major, hr.minor, hr.nlink⟩
  rw [setLock_setLock]
  refine step_iupdate ha locks_setLock_self rfl ?_
  rw [setLock_setLock]
  refine step_invalidate ha locks_setLock_self ?_
  rw [setLock_setLock]
  refine step_releasesleep ha locks_setLock_self rfl ?_
  rw [setLock_none hnone]
  exact .call ⟨ha, hpos, hnone⟩ fun _ _ hp => hp

/-- Unlock, then put. -/
theorem iunlockput_safe (hpos : 0 < r.refs ip) (hl : r.locks ip = some h) (hv : h.valid = true)
    (hc : h.clean = true) (ht : h.attr.type ≠ 0) : Uses sb t (iunlockput ip) r fun _ r' => r' =
    (r.dropRef ip).setLock ip none := by
  refine step_iunlock ha hl hv hc ht ?_
  exact iput_safe ha hpos fun hl' => absurd locks_setLock_self hl'

theorem ialloc_loop_safe (ht : 0 < type ∧ type < 2 ^ 16) (hi : n = 0 ∨ i + n ≤ sb.ninodes) :
    Uses sb t (ialloc_loop type n i) r fun ip r' => r' = r.addRef ip := by
  induction n generalizing i with
  | zero => exact step_panic ha
  | succ n ih =>
    refine .step ⟨ha, by omega, ht⟩ ?_
    intro taken r' hp
    obtain rfl := hp
    cases taken with
    | true => exact .call ⟨ha, fun _ => show i < sb.ninodes by omega⟩ fun _ _ hp => hp
    | false => exact ih (by omega)

theorem ialloc_safe (ht : 0 < type ∧ type < 2 ^ 16) :
    Uses sb t (ialloc sb type) r fun ip r' => r' = r.addRef ip :=
  ialloc_loop_safe ha ht (by omega)

/-! ## Directories -/

/-- The loop of `dirlookup` takes a reference to the inode it finds. -/
def Found (t : Prop) (r : Res) (o : Option (Fin NINODE × Nat)) (r' : Res) : Prop :=
  match o with
  | none => r' = r
  | some (ip, off) => r' = r.addRef ip ∧ Dirent.SIZE ∣ off ∧ (t → off < 2 ^ 32)

section

variable (hl : r.locks dp = some h) (hv : h.valid = true)
include hl hv

theorem dirlookup_loop_safe (ht : h.attr.type = T_DIR) (hoff : Dirent.SIZE ∣ off) :
    Uses sb t (dirlookup_loop dp name n off) r (Found t r) := by
  induction n generalizing off with
  | zero => exact rfl
  | succ n ih =>
    refine step_size ha hl hv fun sz hsz => ?_
    split
    · next hlt =>
      have hlt' : t → off < 2 ^ 32 := fun ht => by have := size_lt hlt (hsz ht); omega
      refine step_readi ha hl hv (fun ht => ⟨hlt' ht, by decide⟩) fun b hb => ?_
      dsimp only
      split
      · exact step_panic ha
      · next hr =>
        split
        · exact ih (Nat.dvd_add hoff (Nat.dvd_refl _))
        · split
          · refine step_iget ha (fun htrack => hb htrack ht hoff rfl (not_not.mp hr)) fun ip => ?_
            exact ⟨rfl, hoff, hlt'⟩
          · exact ih (Nat.dvd_add hoff (Nat.dvd_refl _))
    · exact rfl

theorem dirlookup_safe : Uses sb t (dirlookup dp name) r (Found t r) := by
  refine step_attr ha hl hv ?_
  split
  · exact step_panic ha
  · next ht =>
    refine step_size ha hl hv fun sz _ => ?_
    exact dirlookup_loop_safe ha hl hv (not_not.mp ht) (dvd_zero _)

theorem dirlink_loop_safe (hoff : Dirent.SIZE ∣ off) (hlt : t → off < 2 ^ 32) :
    Uses sb t (dirlink_loop dp n off) r
      fun o r' => Dirent.SIZE ∣ o ∧ (t → o < 2 ^ 32) ∧ r' = r := by
  induction n generalizing off with
  | zero => exact ⟨hoff, hlt, rfl⟩
  | succ n ih =>
    refine step_size ha hl hv fun sz hsz => ?_
    split
    · next hin =>
      refine step_readi ha hl hv (fun ht => ⟨hlt ht, by decide⟩) fun b _ => ?_
      dsimp only
      split
      · exact step_panic ha
      · split
        · exact ⟨hoff, hlt, rfl⟩
        · exact ih (Nat.dvd_add hoff (Nat.dvd_refl _)) fun ht => size_lt hin (hsz ht)
    · exact ⟨hoff, hlt, rfl⟩

theorem isdirempty_loop_safe : Uses sb t (isdirempty_loop dp n off) r (Same r) := by
  induction n generalizing off with
  | zero => exact rfl
  | succ n ih =>
    refine step_size ha hl hv fun sz hsz => ?_
    split
    · next hlt =>
      refine step_readi ha hl hv (fun ht => ?_) fun b _ => ?_
      · have := size_lt hlt (hsz ht)
        exact ⟨by omega, by decide⟩
      dsimp only
      split
      · exact step_panic ha
      · split
        · exact rfl
        · exact ih
    · exact rfl

theorem isdirempty_safe : Uses sb t (isdirempty dp) r (Same r) :=
  step_size ha hl hv fun _ _ => isdirempty_loop_safe ha hl hv

end

theorem dirlink_safe (hb : r.Backs) (hl : r.Locked dp) (hi : t → i < sb.ninodes) :
    Uses sb t (dirlink dp name i) r (Same r) := by
  obtain ⟨m, hm, hl⟩ := hl
  refine seq (dirlookup_safe ha hl rfl) ?_
  rintro (_ | ⟨ip, off⟩) r1 hr1
  · obtain rfl := hr1
    refine step_size ha hl rfl fun sz _ => ?_
    refine seq (dirlink_loop_safe ha hl rfl (Nat.dvd_zero _) fun _ => Nat.two_pow_pos 32) ?_
    rintro off r2 ⟨hdvd, hoff, rfl⟩
    refine step_writei ha hl hm (fun ht => ⟨hoff ht, by decide⟩)
      (fun ht _ => ⟨hdvd, load_bytes.trans_lt (hi ht)⟩) fun v => ?_
    split
    · exact step_panic ha
    · exact rfl
  · obtain ⟨rfl, -, -⟩ := hr1
    refine next (iput_safe ha refs_addRef_pos hb.found) fun _ => ?_
    exact dropRef_addRef

/-! ## Path names -/

/-- A lookup takes a reference to the inode it returns. -/
def Took {β : Type} (r : Res) (o : Option (Fin NINODE × β)) (r' : Res) : Prop :=
  match o with
  | none => r' = r
  | some (ip, _) => r' = r.addRef ip

/-- A function that follows a path from `ip` gives up the reference to `ip` for
    one to the inode it returns. -/
def Walked (r : Res) (ip : Fin NINODE) (o : Option (Fin NINODE × Bytes)) (r' : Res) : Prop :=
  match o with
  | none => r' = r.dropRef ip
  | some (jp, _) => r' = (r.dropRef ip).addRef jp

omit ha in
/-- A walk from an inode that the process took a reference to for it. -/
theorem Walked.took {o : Option (Fin NINODE × Bytes)} (h : Walked (r.addRef ip) ip o r') :
    Took r o r' := by
  cases o with
  | none => exact h.trans dropRef_addRef
  | some x => exact h.trans (by rw [dropRef_addRef])

theorem namex_end_safe (hpos : 0 < r.refs ip) (hnone : r.locks = fun _ => none) :
    Uses sb t (namex_end parent ip) r (Walked r ip) := by
  unfold namex_end
  split
  · refine next (iput_safe ha hpos fun hl => absurd (congrFun hnone ip) hl) fun _ => ?_
    exact rfl
  · exact (addRef_dropRef hpos).symm

theorem namex_loop_safe (hpos : 0 < r.refs ip) (hnone : r.locks = fun _ => none) :
    Uses sb t (namex_loop parent n ip path) r (Walked r ip) := by
  induction n generalizing r ip path with
  | zero => exact namex_end_safe ha hpos hnone
  | succ n ih =>
    unfold namex_loop
    split
    · exact namex_end_safe ha hpos hnone
    · next rest name _ =>
      refine step_ilock ha (.inl hpos) fun m hfree hm => ?_
      refine step_attr ha locks_setLock_self rfl ?_
      -- back to the reference alone
      have hback : Uses sb t (iunlockput ip) (r.setLock ip (some (.of m))) fun _ r' =>
          r' = r.dropRef ip := by
        refine Safe.mono (iunlockput_safe ha hpos locks_setLock_self rfl rfl hm) ?_
        rintro _ r' rfl
        rw [dropRef_setLock, setLock_none (r := r.dropRef ip) hfree]
      split
      · refine hback.next fun _ => ?_
        exact rfl
      · split
        · refine step_iunlock ha locks_setLock_self rfl rfl hm ?_
          rw [setLock_none hfree]
          exact (addRef_dropRef hpos).symm
        · refine Safe.seq (dirlookup_safe ha locks_setLock_self rfl) ?_
          rintro (_ | ⟨next, off⟩) r1 hr1
          · obtain rfl := hr1
            refine hback.next fun _ => ?_
            exact rfl
          · obtain ⟨rfl, -, -⟩ := hr1
            rw [addRef_setLock]
            refine Safe.next (iunlockput_safe ha (refs_pos_addRef hpos) locks_setLock_self rfl rfl
              hm) fun _ => ?_
            rw [dropRef_setLock, dropRef_addRef_comm hpos,
              setLock_none (r := (r.dropRef ip).addRef next) hfree]
            refine Safe.mono (ih ha refs_addRef_pos hnone) ?_
            rintro (_ | ⟨jp, name⟩) r' hr'
            · exact hr'.took
            · exact hr'.took

end

/-- The process has a reference to its working directory, and no locks. -/
structure Res.Ready (r : Res) : Prop where
  alive : r.alive = true
  locks : r.locks = fun _ => none
  cwd : ∀ ip, r.cwd = some ip → 0 < r.refs ip

theorem namex_safe {parent : Bool} {path : Bytes} (hr : r.Ready)
    (hroot : t → ROOTINO < sb.ninodes) : Uses sb t (namex parent path) r (Took r) := by
  have hwalk : ∀ ip, Uses sb t (namex_loop parent path.length ip path) (r.addRef ip) (Took r) := by
    intro ip
    exact mono (namex_loop_safe hr.alive refs_addRef_pos hr.locks) fun _ _ h => h.took
  unfold namex
  split
  · exact step_iget hr.alive hroot hwalk
  · refine step_cwd hr.alive fun ip hcwd => ?_
    exact step_idup hr.alive (hr.cwd ip hcwd) (hwalk ip)

theorem namei_safe {path : Bytes} (hr : r.Ready) (hroot : t → ROOTINO < sb.ninodes) :
    Uses sb t (namei path) r fun o r' => match o with
      | none => r' = r
      | some ip => r' = r.addRef ip := by
  refine seq (namex_safe hr hroot) ?_
  rintro (_ | ⟨ip, name⟩) r' hr'
  · exact hr'
  · exact hr'

/-! ## Files -/

theorem step_file (ha : r.alive = true) (hf : 0 < r.files f)
    (hk : ∀ x, x.off < 2 ^ 32 → (∀ ip, r.seen f = some ip → x.inode = some ip) →
      Uses sb t (k x) (r.see f x.inode) Q) : Uses sb t (file f >>= k) r Q := by
  refine .step ⟨ha, hf⟩ ?_
  rintro x _ ⟨hoff, hseen, rfl⟩
  exact hk x hoff hseen

/-- A second look at a file. -/
theorem step_file_again (ha : r.alive = true) (hf : 0 < r.files f) (hs : r.seen f = some ip)
    (hk : ∀ x, x.off < 2 ^ 32 → Uses sb t (k x) r Q) : Uses sb t (file f >>= k) r Q := by
  refine step_file ha hf fun x hoff hseen => ?_
  have hsame : r.see f (some ip) = r := by
    unfold see
    dsimp only
    rw [update_eq_self_iff.mpr hs.symm]
  rw [hseen ip hs, hsame]
  exact hk x hoff

theorem step_advance {k : Unit → Code α} (ha : r.alive = true) (hf : 0 < r.files f)
    (hk : Uses sb t (k ()) r Q) : Uses sb t (cmd (.advance f n) >>= k) r Q :=
  .stepTo ⟨ha, hf⟩ (fun _ _ hp => hp) fun _ => hk

theorem step_readUser {dst : Nat} {k : Int × Bytes → Code α} (ha : r.alive = true)
    (hl : r.locks ip = some h) (hv : h.valid = true) (hoff : off < 2 ^ 32) (hn : n < 2 ^ 32)
    (hk : ∀ b, Uses sb t (k b) r Q) : Uses sb t (readUser cp ip dst off n >>= k) r Q := by
  refine .step ⟨ha, ⟨h, hl, hv⟩, fun _ => ⟨hoff, hn⟩⟩ ?_
  rintro b _ ⟨rfl, -⟩
  exact hk b

theorem step_writeUser {cp : Copyin} {src : Nat} {k : Int → Code α} (ha : r.alive = true)
    (hl : r.locks ip = some (.of m)) (hm : m.type ≠ 0) (hoff : off < 2 ^ 32) (hn : n < 2 ^ 32)
    (hk : ∀ v, Uses sb t (k v) r Q) : Uses sb t (writeUser cp ip src off n >>= k) r Q :=
  .stepTo ⟨ha, fun _ => ⟨hoff, hn⟩, m, hl, hm, fun _ hc => by cases hc⟩ (fun _ _ hp => hp) hk

theorem Res.dropEnd_addEnd {e : Nat × Bool} : (r.addEnd e).dropEnd e = r := by
  unfold addEnd dropEnd
  dsimp only
  rw [update_self, Nat.add_sub_cancel, update_idem, update_eq_self]

theorem Res.addEnd_comm {e e' : Nat × Bool} : (r.addEnd e).addEnd e' = (r.addEnd e').addEnd e := by
  unfold addEnd
  dsimp only
  by_cases he : e = e'
  · rw [he]
  · rw [update_of_ne (Ne.symm he), update_of_ne he, update_comm he]

theorem pipeclose_safe {writable : Bool} (ha : r.alive = true) (hd : r.doomed = none) :
    Uses sb t (pipeclose pi writable) (r.addEnd (pi, writable)) (Same r) := by
  have hpos : 0 < (r.addEnd (pi, writable)).ends (pi, writable) := by
    show 0 < update r.ends _ (r.ends (pi, writable) + 1) _
    rw [update_self]
    exact succ_pos _
  have hback : { r with doomed := none } = r := by
    rw [← hd]
  refine .step ⟨ha, hpos, hd⟩ ?_
  rintro (_ | _) r1 hr1
  · rw [show r1 = _ from hr1, dropEnd_addEnd]
    exact hback
  · have hr1 : r1 = { r with doomed := some pi } := by
      rw [show r1 = _ from hr1, dropEnd_addEnd]
      rfl
    rw [hr1]
    refine .call ⟨ha, rfl⟩ fun _ r2 hr2 => ?_
    rw [show r2 = _ from hr2]
    exact hback

theorem fileclose_safe (ha : r.alive = true) (hf : 0 < r.files f) (hd : r.doomed = none)
    (hb : r.Backs) : Uses sb t (fileclose f) r fun _ r' => r' = r.dropFile f := by
  refine .step ⟨ha, hf, hb⟩ ?_
  rintro (_ | ff) r1 hr1
  · exact hr1
  · obtain rfl := hr1
    -- the reference of the file goes to `iput`
    have hput : Uses sb t (do begin_op; iput ff.ip; end_op)
        ((r.dropFile f).addRef ff.ip) fun _ r' => r' = r.dropFile f := by
      refine step_begin_op ha ?_
      refine seq (iput_safe ha refs_addRef_pos fun hl => ?_) ?_
      · show 1 < ((r.dropFile f).addRef ff.ip).refs ff.ip
        rw [refs_addRef_self]
        have : 0 < (r.dropFile f).refs ff.ip := hb ff.ip hl
        omega
      · rintro _ r2 rfl
        rw [dropRef_addRef]
        exact .call ⟨ha, trivial⟩ fun _ _ hp => hp
    unfold gain
    dsimp only
    cases ff.type with
    | FD_INODE => exact hput
    | FD_DEVICE => exact hput
    | FD_PIPE => exact pipeclose_safe (r := r.dropFile f) ha hd
    | FD_NONE => exact rfl

/-- What a read or write leaves: the process has looked at the file. -/
def Looked (r : Res) (f : Fin NFILE) (r' : Res) : Prop := ∃ o, r' = r.see f o

theorem seen_see : (r.see f (some ip)).seen f = some ip := update_self ..

section

variable (ha : r.alive = true) (hf : 0 < r.files f)
include ha hf

theorem fileread_safe (hn : n < 2 ^ 32) :
    Uses sb t (fileread cp other f addr n) r fun _ r' => Looked r f r' := by
  refine step_file ha hf fun x hoff _ => ?_
  split
  · exact ⟨_, rfl⟩
  · cases ht : x.type with
    | FD_PIPE => exact ⟨_, rfl⟩
    | FD_DEVICE => exact ⟨_, rfl⟩
    | FD_NONE => exact step_panic (r := r.see f x.inode) (by rw [File.inode, ht]; exact ha)
    | FD_INODE =>
      have hi : x.inode = some x.ip := by rw [File.inode, ht]
      rw [hi]
      refine step_ilock (r := r.see f (some x.ip)) ha (.inr ⟨f, seen_see⟩) fun m hfree hm => ?_
      refine step_file_again ha hf seen_see fun y hoff => ?_
      refine step_readUser ha locks_setLock_self rfl hoff hn fun b => ?_
      have hunlock : Uses sb t (iunlock x.ip >>= fun _ => pure b.1)
          ((r.see f (some x.ip)).setLock x.ip (some (.of m))) fun _ r' => Looked r f r' := by
        refine step_iunlock ha locks_setLock_self rfl rfl hm ?_
        rw [setLock_none hfree]
        exact ⟨_, rfl⟩
      dsimp only
      split
      · exact step_advance ha hf hunlock
      · exact hunlock

theorem filewrite_loop_safe {cp : Copyin} {k i : Nat} (hs : r.seen f = some ip) :
    Uses sb t (filewrite_loop cp f ip addr n k i) r (Same r) := by
  induction k generalizing i with
  | zero => exact rfl
  | succ k ih =>
    unfold filewrite_loop
    split
    · refine step_begin_op ha ?_
      refine step_ilock ha (.inr ⟨f, hs⟩) fun m hfree hm => ?_
      refine step_file_again ha hf hs fun y hoff => ?_
      have hmax : FILEMAX < 2 ^ 32 := by decide
      refine step_writeUser ha locks_setLock_self hm hoff (by omega) fun v => ?_
      have hunlock : Uses sb t (do
          iunlock ip
          end_op
          if v ≠ (min (n - i) FILEMAX : Nat) then return i
          else filewrite_loop cp f ip addr n k (i + min (n - i) FILEMAX))
          (r.setLock ip (some (.of m))) (Same r) := by
        refine step_iunlock ha locks_setLock_self rfl rfl hm ?_
        rw [setLock_none hfree]
        refine step_end_op ha ?_
        split
        · exact rfl
        · exact ih
      dsimp only
      split
      · exact step_advance ha hf hunlock
      · exact hunlock
    · exact rfl

theorem filewrite_safe {cp : Copyin} {n : Int} :
    Uses sb t (filewrite cp other f addr n) r fun _ r' => Looked r f r' := by
  refine step_file ha hf fun x _ _ => ?_
  split
  · exact ⟨_, rfl⟩
  · cases ht : x.type with
    | FD_PIPE => exact ⟨_, rfl⟩
    | FD_DEVICE => exact ⟨_, rfl⟩
    | FD_NONE => exact step_panic (r := r.see f x.inode) (by rw [File.inode, ht]; exact ha)
    | FD_INODE =>
      have hi : x.inode = some x.ip := by rw [File.inode, ht]
      rw [hi]
      refine next (filewrite_loop_safe (r := r.see f (some x.ip)) ha hf seen_see) fun i => ?_
      exact ⟨_, rfl⟩

end

/-! ## Links -/

@[simp] theorem incLink_type (m : Attr) : (incLink m).type = m.type := by
  unfold incLink
  rfl

@[simp] theorem decLink_type (m : Attr) : (decLink m).type = m.type := by
  unfold decLink
  rfl

theorem incLink_inRange (hm : InRange m) : InRange (incLink m) := by
  unfold incLink
  exact ⟨hm.type, hm.major, hm.minor, Nat.mod_lt _ (Nat.two_pow_pos 16)⟩

theorem decLink_inRange (hm : InRange m) : InRange (decLink m) := by
  unfold decLink
  exact ⟨hm.type, hm.major, hm.minor, Nat.mod_lt _ (Nat.two_pow_pos 16)⟩

/-- Change the number of links of a locked inode and write it. -/
theorem step_setLinks {g : Attr → Attr} {k : Unit → Code α} (ha : r.alive = true)
    (hl : r.locks ip = some (.of m)) (hg : InRange m → InRange (g m)) (ht : (g m).type = m.type)
    (hk : Uses sb t (k ()) (r.setLock ip (some (.of (g m)))) Q) :
    Uses sb t (modify ip g >>= fun _ => iupdate ip >>= k) r Q := by
  refine step_modify ha hl rfl hg (.inl ht) ?_
  refine step_iupdate ha locks_setLock_self rfl ?_
  rw [setLock_setLock]
  exact hk

/-- `iunlockput` of an inode that the process has locked with one more
    reference. -/
theorem iunlockput_back (ha : r.alive = true) (hm : m.type ≠ 0) (hfree : r.locks ip = none) :
    Uses sb t (iunlockput ip) ((r.addRef ip).setLock ip (some (.of m))) (Same r) := by
  refine mono (iunlockput_safe ha refs_addRef_pos locks_setLock_self rfl rfl hm) ?_
  rintro _ r' rfl
  rw [dropRef_setLock, dropRef_addRef, setLock_none hfree]

/-- The end of a call that has the inode locked. -/
theorem put_end_safe (ha : r.alive = true) (hm : m.type ≠ 0) (hfree : r.locks ip = none)
  (hQ : Q v r) :
    Uses sb t (do iunlockput ip; end_op; return v) ((r.addRef ip).setLock ip (some (.of m))) Q := by
  refine next (iunlockput_back ha hm hfree) fun _ => ?_
  exact step_end_op ha hQ

/-- `iput` of one more reference to an inode that the process has not locked. -/
theorem iput_back (ha : r.alive = true) (hfree : r.locks ip = none) :
    Uses sb t (iput ip) (r.addRef ip) (Same r) := by
  refine mono (iput_safe ha refs_addRef_pos fun hl => absurd hfree hl) ?_
  rintro _ r' rfl
  exact dropRef_addRef

theorem link_bad_safe (ha : r.alive = true) (hfree : r.locks ip = none) :
    Uses sb t (link_bad ip) (r.addRef ip) (Same r) := by
  refine step_ilock ha (.inl refs_addRef_pos) fun m _ hm => ?_
  refine step_setLinks ha locks_setLock_self decLink_inRange (decLink_type m) ?_
  rw [setLock_setLock]
  rw [← decLink_type] at hm
  exact put_end_safe ha hm hfree rfl

theorem Res.Ready.addRef (hr : r.Ready) : (r.addRef ip).Ready :=
  ⟨hr.alive, hr.locks, fun jp hj => refs_pos_addRef (hr.cwd jp hj)⟩

theorem sys_link_safe {old new : Option Bytes} (hr : r.Ready) (hroot : t → ROOTINO < sb.ninodes) :
    Uses sb t (sys_link old new) r (Same r) := by
  have ha := hr.alive
  have hfree : ∀ ip, r.locks ip = none := congrFun hr.locks
  unfold sys_link
  split
  · refine step_begin_op ha ?_
    refine seq (namei_safe hr hroot) ?_
    rintro (_ | ip) r1 rfl
    · exact step_end_op ha rfl
    · refine step_ilock ha (.inl refs_addRef_pos) fun m _ hm => ?_
      refine step_attr ha locks_setLock_self rfl ?_
      split
      · exact put_end_safe ha hm (hfree ip) rfl
      · refine step_setLinks ha locks_setLock_self incLink_inRange (incLink_type m) ?_
        rw [setLock_setLock]
        rw [← incLink_type] at hm
        refine step_iunlock ha locks_setLock_self rfl rfl hm ?_
        rw [setLock_none (r := r.addRef ip) (hfree ip)]
        refine seq (namex_safe hr.addRef hroot) ?_
        rintro (_ | ⟨dp, name⟩) r2 rfl
        · exact link_bad_safe ha (hfree ip)
        · refine step_ilock ha (.inl refs_addRef_pos) fun m' _ hm' => ?_
          refine step_inum ha (.inl (refs_pos_addRef refs_addRef_pos)) fun n hn => ?_
          refine seq (dirlink_safe ha ?_ (locked_setLock hm') hn) ?_
          · exact (Res.Backs.of_none hr.locks).addRef.addRef.setLock refs_addRef_pos
          · rintro v r3 rfl
            split
            · refine next (iunlockput_back ha hm' (hfree dp)) fun _ => ?_
              exact link_bad_safe ha (hfree ip)
            · refine next (iunlockput_back ha hm' (hfree dp)) fun _ => ?_
              refine next (iput_back ha (hfree ip)) fun _ => ?_
              exact step_end_op ha rfl
  · exact rfl

/-! ## Two inodes

    A directory and an inode in it, both locked. -/

def Res.two (r : Res) (dp ip : Fin NINODE) (md mi : Attr) : Res :=
  (((r.addRef dp).addRef ip).setLock dp (some (.of md))).setLock ip (some (.of mi))

section Two

variable {md mi md' mi' : Attr}

theorem Res.two_snd : (r.two dp ip md mi).locks ip = some (.of mi) := locks_setLock_self

theorem Res.two_fst (hne : dp ≠ ip) : (r.two dp ip md mi).locks dp = some (.of md) := by
  unfold two
  rw [locks_setLock_of_ne hne, locks_setLock_self]

theorem Res.setLock_comm {h h' : Option Hold} (hne : dp ≠ ip) :
    (r.setLock ip h).setLock dp h' = (r.setLock dp h').setLock ip h := by
  unfold Res.setLock
  dsimp only
  rw [update_comm hne.symm]

theorem Res.two_setFst (hne : dp ≠ ip) :
    (r.two dp ip md mi).setLock dp (some (.of md')) = r.two dp ip md' mi := by
  unfold two
  rw [setLock_comm hne, setLock_setLock]

theorem Res.two_refs_fst : 0 < (r.two dp ip md mi).refs dp :=
  refs_pos_addRef refs_addRef_pos

theorem Res.two_refs_snd : 0 < (r.two dp ip md mi).refs ip := refs_addRef_pos

theorem Res.two_backs (hnone : r.locks = fun _ => none) : (r.two dp ip md mi).Backs :=
  ((Res.Backs.of_none hnone).addRef.addRef.setLock (refs_pos_addRef refs_addRef_pos)).setLock
    refs_addRef_pos

/-- `iunlockput` of the directory. -/
theorem iunlockput_fst (ha : r.alive = true) (hne : dp ≠ ip) (hmd : md.type ≠ 0)
    (hfree : r.locks dp = none) :
    Uses sb t (iunlockput dp) (r.two dp ip md mi)
      fun _ r' => r' = (r.addRef ip).setLock ip (some (.of mi)) := by
  refine mono (iunlockput_safe ha two_refs_fst (two_fst hne) rfl rfl hmd) ?_
  rintro _ r' rfl
  unfold two
  rw [dropRef_setLock, dropRef_setLock, dropRef_addRef_comm refs_addRef_pos, dropRef_addRef,
    setLock_comm hne, setLock_none (r := r.addRef ip) hfree]

/-- `iunlockput` of the other one. -/
theorem iunlockput_snd (ha : r.alive = true) (hne : dp ≠ ip) (hmi : mi.type ≠ 0)
    (hfree : r.locks ip = none) :
    Uses sb t (iunlockput ip) (r.two dp ip md mi)
      fun _ r' => r' = (r.addRef dp).setLock dp (some (.of md)) := by
  refine iunlockput_back (r := (r.addRef dp).setLock dp (some (.of md))) ha hmi ?_
  rw [locks_setLock_of_ne hne.symm]
  exact hfree

theorem unlink_entry_safe {isdir : Bool} (hn : t → 0 < sb.ninodes) (ha : r.alive = true)
    (hnone : r.locks = fun _ => none) (hne : dp ≠ ip) (hmd : md.type ≠ 0) (hmi : mi.type ≠ 0)
    (hdvd : Dirent.SIZE ∣ off) (hoff : t → off < 2 ^ 32) :
    Uses sb t (unlink_entry dp ip off isdir) (r.two dp ip md mi) (Same r) := by
  have hfree := congrFun hnone
  -- what is left when the directory has its new number of links
  have hrest : ∀ md : Attr, md.type ≠ 0 → Uses sb t (do
      iunlockput dp
      modify ip decLink
      iupdate ip
      iunlockput ip
      end_op
      return (0 : Int)) (r.two dp ip md mi) (Same r) := by
    intro md hmd
    refine next (iunlockput_fst ha hne hmd (hfree dp)) fun _ => ?_
    refine step_setLinks ha locks_setLock_self decLink_inRange (decLink_type mi) ?_
    rw [setLock_setLock]
    rw [← decLink_type] at hmi
    exact put_end_safe ha hmi (hfree ip) rfl
  refine step_writei ha (two_fst hne) hmd (fun ht => ⟨hoff ht, by decide⟩)
    (fun ht _ => ⟨hdvd, hn ht⟩) fun v => ?_
  dsimp only
  split
  · exact step_panic ha
  · split
    · refine step_setLinks ha (two_fst hne) decLink_inRange (decLink_type md) ?_
      rw [two_setFst hne]
      rw [← decLink_type] at hmd
      exact hrest _ hmd
    · exact hrest md hmd

end Two

theorem ne_of_locked (hl : ((r.setLock dp (some (.of m))).addRef ip).locks ip = none) :
    dp ≠ ip := by
  rintro rfl
  rw [locks_addRef, locks_setLock_self] at hl
  cases hl

theorem sys_unlink_safe (hr : r.Ready) (hroot : t → ROOTINO < sb.ninodes) :
    Uses sb t (sys_unlink path) r (Same r) := by
  have ha := hr.alive
  have hfree := congrFun hr.locks
  cases path with
  | none => exact rfl
  | some path =>
    refine step_begin_op ha ?_
    refine seq (namex_safe hr hroot) ?_
    rintro (_ | ⟨dp, name⟩) r1 rfl
    · exact step_end_op ha rfl
    · refine step_ilock ha (.inl refs_addRef_pos) fun md _ hmd => ?_
      split
      · exact put_end_safe ha hmd (hfree dp) rfl
      · refine seq (dirlookup_safe ha locks_setLock_self rfl) ?_
        rintro (_ | ⟨ip, off⟩) r2 hr2
        · obtain rfl := hr2
          exact put_end_safe ha hmd (hfree dp) rfl
        · obtain ⟨rfl, hdvd, hoff⟩ := hr2
          refine step_ilock ha (.inl refs_addRef_pos) fun mi hl hmi => ?_
          have hne := ne_of_locked hl
          refine step_attr ha locks_setLock_self rfl ?_
          split
          · exact step_panic ha
          · split
            · refine seq (isdirempty_safe ha locks_setLock_self rfl) ?_
              rintro (_ | _) r3 rfl
              · refine next (iunlockput_snd ha hne hmi (hfree ip)) fun _ => ?_
                exact put_end_safe ha hmd (hfree dp) rfl
              · exact unlink_entry_safe (fun ht => zero_lt_of_lt (hroot ht)) ha hr.locks hne hmd hmi
                  hdvd hoff
            · exact unlink_entry_safe (fun ht => zero_lt_of_lt (hroot ht)) ha hr.locks hne hmd hmi
                hdvd hoff

/-! ## New inodes -/

/-- A function that returns an inode locked, with a reference. -/
def Opened (r : Res) (o : Option (Fin NINODE)) (r' : Res) : Prop :=
  match o with
  | none => r' = r
  | some ip => ∃ m, m.type ≠ 0 ∧ r' = (r.addRef ip).setLock ip (some (.of m))

section Create

variable {md mi : Attr}

section

variable {name : Bytes} {type major minor : Nat} (ha : r.alive = true)
  (hnone : r.locks = fun _ => none)
include ha hnone

theorem create_link_safe (hne : dp ≠ ip) (hmd : md.type ≠ 0) (hmi : mi.type ≠ 0) :
    Uses sb t (create_link dp ip name) (r.two dp ip md mi) (Opened r) := by
  refine step_inum ha (.inl two_refs_snd) fun n hn => ?_
  refine next (dirlink_safe ha (two_backs hnone) ⟨md, hmd, two_fst hne⟩ hn) fun v => ?_
  split
  · exact step_panic ha
  · refine next (iunlockput_fst ha hne hmd (congrFun hnone dp)) fun _ => ?_
    exact ⟨mi, hmi, rfl⟩

theorem create_dots_safe (hne : dp ≠ ip) (hmi : mi.type ≠ 0) :
    Uses sb t (create_dots dp ip) (r.two dp ip md mi)
      fun _ r' => r' = r.two dp ip (incLink md) mi := by
  have hlocked : ∀ md, (r.two dp ip md mi).Locked ip := fun md => ⟨mi, hmi, two_snd⟩
  refine step_setLinks ha (two_fst hne) incLink_inRange (incLink_type md) ?_
  rw [two_setFst hne]
  refine step_inum ha (.inl two_refs_snd) fun n hn => ?_
  refine next (dirlink_safe ha (two_backs hnone) (hlocked _) hn) fun v => ?_
  split
  · exact step_panic ha
  · refine step_inum ha (.inl two_refs_fst) fun n hn => ?_
    refine next (dirlink_safe ha (two_backs hnone) (hlocked _) hn) fun v => ?_
    split
    · exact step_panic ha
    · exact rfl

theorem create_new_safe (ht : 0 < type ∧ type < 2 ^ 16) (hmd : md.type ≠ 0) :
    Uses sb t (create_new sb dp name type major minor)
      ((r.addRef dp).setLock dp (some (.of md))) (Opened r) := by
  refine next (ialloc_safe ha ht) fun ip => ?_
  refine step_ilock ha (.inl refs_addRef_pos) fun mi hl hmi => ?_
  have hne := ne_of_locked hl
  refine step_setLinks ha locks_setLock_self (fun hi => ?_) rfl ?_
  · exact ⟨hi.type, Nat.mod_lt _ (Nat.two_pow_pos 16), Nat.mod_lt _ (Nat.two_pow_pos 16),
      show 1 < 2 ^ 16 by decide⟩
  rw [setLock_setLock]
  split
  · refine next (create_dots_safe ha hnone hne hmi) fun _ => ?_
    rw [← incLink_type] at hmd
    exact create_link_safe ha hnone hne hmd hmi
  · exact create_link_safe ha hnone hne hmd hmi

theorem create_old_safe (hmd : md.type ≠ 0) :
    Uses sb t (create_old dp ip type)
      (((r.addRef dp).setLock dp (some (.of md))).addRef ip) (Opened r) := by
  have hfree := congrFun hnone
  refine seq (iunlockput_safe ha (refs_pos_addRef refs_addRef_pos) locks_setLock_self rfl rfl
    hmd) ?_
  rintro _ r1 rfl
  rw [addRef_setLock, dropRef_setLock, dropRef_addRef_comm refs_addRef_pos, dropRef_addRef,
    setLock_none (r := r.addRef ip) (hfree dp)]
  refine step_ilock ha (.inl refs_addRef_pos) fun mi _ hmi => ?_
  refine step_attr ha locks_setLock_self rfl ?_
  split
  · exact ⟨mi, hmi, rfl⟩
  · refine next (iunlockput_back ha hmi (hfree ip)) fun _ => ?_
    exact rfl

end

theorem create_safe {path : Bytes} (hr : r.Ready) (hroot : t → ROOTINO < sb.ninodes)
    (ht : 0 < type ∧ type < 2 ^ 16) : Uses sb t (create sb path type major minor) r (Opened r) := by
  have ha := hr.alive
  refine seq (namex_safe hr hroot) ?_
  rintro (_ | ⟨dp, name⟩) r1 hr1
  · exact hr1
  · obtain rfl := hr1
    refine step_ilock ha (.inl refs_addRef_pos) fun md _ hmd => ?_
    refine seq (dirlookup_safe ha locks_setLock_self rfl) ?_
    rintro (_ | ⟨ip, off⟩) r2 hr2
    · obtain rfl := hr2
      exact create_new_safe ha hr.locks ht hmd
    · obtain ⟨rfl, -, -⟩ := hr2
      exact create_old_safe ha hr.locks hmd

end Create

theorem created_safe (ha : r.alive = true) (hnone : r.locks = fun _ => none)
    (ho : Opened r o r') : Uses sb t (created o) r' fun _ r'' => r'' = r := by
  cases o with
  | none =>
    obtain rfl := ho
    exact step_end_op ha rfl
  | some ip =>
    obtain ⟨m, hm, rfl⟩ := ho
    exact put_end_safe ha hm (congrFun hnone ip) rfl

theorem nothing_safe (ha : r.alive = true) :
    Uses sb t (do begin_op; end_op; return (-1 : Int)) r (Same r) :=
  step_begin_op ha (step_end_op ha rfl)

section

variable (hr : r.Ready) (hroot : t → ROOTINO < sb.ninodes)
include hr hroot

theorem make_safe {path : Bytes} (ht : 0 < type ∧ type < 2 ^ 16) :
    Uses sb t (do begin_op; created (← create sb path type major minor)) r (Same r) := by
  refine step_begin_op hr.alive ?_
  exact seq (create_safe hr hroot ht) fun o r1 ho => created_safe hr.alive hr.locks ho

theorem sys_mkdir_safe : Uses sb t (sys_mkdir sb path) r (Same r) := by
  cases path with
  | none => exact nothing_safe hr.alive
  | some path => exact make_safe hr hroot (by decide)

theorem sys_mknod_safe {major minor : Nat} :
    Uses sb t (sys_mknod sb major minor path) r (Same r) := by
  cases path with
  | none => exact nothing_safe hr.alive
  | some path => exact make_safe hr hroot (by decide)

theorem sys_symlink_safe {target : Option Bytes} :
    Uses sb t (sys_symlink sb past target path) r (Same r) := by
  have ha := hr.alive
  unfold sys_symlink
  split
  · refine step_begin_op ha ?_
    refine seq (create_safe hr hroot (by decide)) ?_
    rintro (_ | ip) r1 hr1
    · obtain rfl := hr1
      exact step_end_op ha rfl
    · obtain ⟨m, hm, rfl⟩ := hr1
      refine step_writei ha locks_setLock_self hm (fun _ => by decide)
        (fun _ hc => absurd hc (by decide)) fun v => ?_
      exact put_end_safe ha hm (congrFun hr.locks ip) rfl
  · exact rfl

/-! ## `sys_open` -/

theorem open_path_safe {path : Bytes} : Uses sb t (open_path sb path omode) r (Opened r) := by
  have ha := hr.alive
  unfold open_path
  split
  · exact create_safe hr hroot (by decide)
  · refine seq (namei_safe hr hroot) ?_
    rintro (_ | ip) r₁ hr₁
    · exact hr₁
    · obtain rfl := hr₁
      refine step_ilock ha (.inl refs_addRef_pos) fun m _ hm => ?_
      refine step_attr ha locks_setLock_self rfl ?_
      split
      · refine next (iunlockput_back ha hm (congrFun hr.locks ip)) fun _ => ?_
        exact rfl
      · exact ⟨m, hm, rfl⟩

theorem follow_safe (hm : m.type ≠ 0) :
    Uses sb t (follow past n ip) ((r.addRef ip).setLock ip (some (.of m))) (Opened r) := by
  have ha := hr.alive
  induction n generalizing ip m with
  | zero => exact ⟨m, hm, rfl⟩
  | succ n ih =>
    refine step_readi ha locks_setLock_self rfl (fun _ => by decide) fun b _ => ?_
    dsimp only
    split
    · refine next (iunlockput_back ha hm (congrFun hr.locks ip)) fun _ => ?_
      exact rfl
    · refine next (iunlockput_back ha hm (congrFun hr.locks ip)) fun _ => ?_
      refine seq (namei_safe hr hroot) ?_
      rintro (_ | jp) r1 hr1
      · exact hr1
      · obtain rfl := hr1
        refine step_ilock ha (.inl refs_addRef_pos) fun m' _ hm' => ?_
        refine step_attr ha locks_setLock_self rfl ?_
        split
        · exact ⟨m', hm', rfl⟩
        · split
          · refine next (iunlockput_back ha hm' (congrFun hr.locks jp)) fun _ => ?_
            exact rfl
          · exact ih hm'

theorem open_follow_safe (hm : m.type ≠ 0) :
    Uses sb t (open_follow omode past ip) ((r.addRef ip).setLock ip (some (.of m))) (Opened r) := by
  refine step_attr hr.alive locks_setLock_self rfl ?_
  split
  · exact follow_safe hr hroot hm
  · exact ⟨m, hm, rfl⟩

end

/-! ## Descriptors -/

section Slots

variable {o : Fin NOFILE → Option (Fin NFILE)} {fd : Fin NOFILE}

theorem slots_pos (h : o fd = some f) : 0 < slots o f := count_pos.mpr ⟨fd, h⟩

theorem slots_none : slots (fun _ => none) f = 0 := by
  by_contra hne
  obtain ⟨fd, hc⟩ := count_pos.mp (pos_of_ne_zero hne)
  cases hc

/-- A descriptor is used for the file. -/
theorem slots_set (h : o fd = none) :
    slots (update o fd (some f)) = update (slots o) f (slots o f + 1) := by
  funext g
  by_cases hg : g = f
  · rw [hg, update_self]
    exact count_update_true (by rw [h]; exact fun hc => by cases hc) rfl
  · rw [update_of_ne hg]
    refine count_update_iff (iff_of_false (fun hc => hg (Option.some.inj hc).symm) ?_)
    rw [h]
    exact fun hc => by cases hc

/-- A descriptor is cleared. -/
theorem slots_clear (h : o fd = some f) :
    slots (update o fd none) = update (slots o) f (slots o f - 1) := by
  funext g
  by_cases hg : g = f
  · rw [hg, update_self]
    have : slots (update o fd none) f + 1 = slots o f := count_update_false h fun hc => by cases hc
    omega
  · rw [update_of_ne hg]
    refine count_update_iff (iff_of_false (fun hc => by cases hc) ?_)
    rw [h]
    exact fun hc => hg (Option.some.inj hc).symm

end Slots

theorem Res.Resting.ready (hr : r.Resting) : r.Ready :=
  ⟨hr.alive, hr.locks, fun ip hc => by rw [hr.refs, cwdRefs, if_pos hc]; exact one_pos⟩

theorem Res.Resting.files_pos {fd : Fin NOFILE} (hr : r.Resting) (h : r.ofile fd = some f) :
    0 < r.files f := by
  rw [hr.files]
  exact slots_pos h

theorem Res.Resting.see (hr : r.Resting) : (r.see f o).Resting := by
  cases o with
  | none => exact hr
  | some ip => exact { hr with }

theorem argfd_safe {fd : Option (Fin NOFILE)} (ha : r.alive = true) :
    Uses sb t (argfd fd) r fun o r' => r' = r ∧ ∀ x, o = some x → r.ofile x.1 = some x.2 := by
  cases fd with
  | none => exact ⟨rfl, fun x hx => by cases hx⟩
  | some fd =>
    refine .step ⟨ha, trivial⟩ ?_
    rintro o r' ⟨rfl, rfl⟩
    cases hf : r'.ofile fd with
    | none => exact ⟨rfl, fun x hx => by cases hx⟩
    | some f =>
      refine ⟨rfl, fun x hx => ?_⟩
      cases hx
      exact hf

theorem Res.Resting.not_fresh (hr : r.Resting) (f : Fin NFILE) : r.fresh f = false :=
  congrFun hr.fresh f

/-- What a call leaves that returns `v`: if it failed, the descriptors are the
    same. -/
def Failed (r : Res) (v : Int) (r' : Res) : Prop := r'.Resting ∧ (v < 0 → r'.ofile = r.ofile)

theorem Failed.same {v : Int} (hr : r.Resting) : Failed r v r := ⟨hr, fun _ => rfl⟩

theorem Failed.fd {fd : Fin NOFILE} (hr : r'.Resting) : Failed r (fd.val : Int) r' :=
  ⟨hr, fun h => absurd h (by omega)⟩

section

variable (hr : r.Resting)
include hr

theorem sys_dup_safe {fd : Option (Fin NOFILE)} :
    Uses sb t (sys_dup fd) r fun v r' => Failed r v r' := by
  have ha := hr.alive
  refine seq (argfd_safe ha) ?_
  rintro (_ | ⟨fd, f⟩) r1 ⟨rfl, ho⟩
  · exact .same hr
  · have hpos := hr.files_pos (ho _ rfl)
    refine .step ⟨ha, trivial⟩ ?_
    rintro (_ | fd') r2 hr2
    · obtain rfl := hr2
      exact Failed.same hr
    · obtain ⟨hnone, rfl⟩ := hr2
      refine .stepTo ⟨ha, hpos, hr.not_fresh f⟩ (fun _ _ hp => hp) fun _ => ?_
      refine Failed.fd { hr with files := ?_ }
      show update r1.files f (r1.files f + 1) = slots (update r1.ofile fd' (some f))
      rw [slots_set hnone, hr.files]

theorem Res.Resting.close {fd : Fin NOFILE} (h : r.ofile fd = some f) :
    (dropFile { r with ofile := update r.ofile fd none } f).Resting := by
  refine { hr with files := ?_, fresh := ?_ }
  · show update r.files f (r.files f - 1) = slots (update r.ofile fd none)
    rw [slots_clear h, hr.files]
  · show update r.fresh f false = fun _ => false
    rw [hr.fresh]
    exact update_eq_self ..

theorem sys_close_safe {fd : Option (Fin NOFILE)} :
    Uses sb t (sys_close fd) r fun _ r' => r'.Resting := by
  have ha := hr.alive
  refine seq (argfd_safe ha) ?_
  rintro (_ | ⟨fd, f⟩) r1 ⟨rfl, ho⟩
  · exact hr
  · have hf := ho _ rfl
    refine .stepTo ⟨ha, trivial⟩ (fun _ _ hp => hp) fun _ => ?_
    refine next (fileclose_safe (f := f) ha (hr.files_pos hf) hr.doomed (.of_none hr.locks))
      fun _ => ?_
    exact hr.close hf

theorem sys_read_safe {fd : Option (Fin NOFILE)} (hn : n < 2 ^ 32) :
    Uses sb t (sys_read cp other fd addr n) r fun _ r' => r'.Resting := by
  refine seq (argfd_safe hr.alive) ?_
  rintro (_ | ⟨fd, f⟩) r1 ⟨rfl, ho⟩
  · exact hr
  · refine mono (fileread_safe hr.alive (hr.files_pos (ho _ rfl)) hn) ?_
    rintro _ r' ⟨o, rfl⟩
    exact hr.see

theorem sys_write_safe {cp : Copyin} {fd : Option (Fin NOFILE)} {n : Int}
    : Uses sb t (sys_write cp other fd addr n) r fun _ r' => r'.Resting := by
  refine seq (argfd_safe hr.alive) ?_
  rintro (_ | ⟨fd, f⟩) r1 ⟨rfl, ho⟩
  · exact hr
  · refine mono (filewrite_safe hr.alive (hr.files_pos (ho _ rfl))) ?_
    rintro _ r' ⟨o, rfl⟩
    exact hr.see

end

/-- A new file. -/
def Res.newFile (r : Res) (f : Fin NFILE) : Res :=
  { r.addFile f with fresh := update r.fresh f true }

theorem Res.newFile_pos : 0 < (r.newFile f).files f := by
  show 0 < update r.files f (r.files f + 1) f
  rw [update_self]
  exact succ_pos _

/-- The file `f` that could not be opened is given back. -/
theorem Res.Resting.giveBack (hr : r.Resting) : ((r.newFile f).dropFile f).Resting := by
  refine { hr with files := ?_, fresh := ?_ }
  · show update (update r.files f _) f (update r.files f (r.files f + 1) f - 1) = _
    rw [update_self, Nat.add_sub_cancel, update_idem, update_eq_self]
    exact hr.files
  · show update (update r.fresh f true) f false = _
    rw [hr.fresh, update_idem]
    exact update_eq_self ..

/-- The process when the file `f` has been set up for `ip`, which is locked. -/
def Res.opening (r : Res) (ip : Fin NINODE) (f : Fin NFILE) (fd : Fin NOFILE) (m : Attr) : Res :=
  { (((((r.addRef ip).setLock ip (some (.of m))).newFile f).dropRef ip).see f (some ip)) with
    fresh := update (r.newFile f).fresh f false
    ofile := update r.ofile fd (some f) }

theorem Res.Resting.opening {fd : Fin NOFILE} (hr : r.Resting) (hnone : r.ofile fd = none) :
    ((r.opening ip f fd m).setLock ip none).Resting := by
  refine { hr.giveBack with refs := ?_, files := ?_, locks := ?_ }
  · show ((r.addRef ip).dropRef ip).refs = cwdRefs r.cwd
    rw [dropRef_addRef]
    exact hr.refs
  · show update r.files f (r.files f + 1) = slots (update r.ofile fd (some f))
    rw [slots_set hnone, hr.files]
  · show update (update r.locks ip _) ip none = _
    rw [hr.locks, update_idem, update_eq_self_iff]

/-- The end of `sys_open`. -/
theorem open_end_safe {fd : Fin NOFILE} {r₀ : Res} (ha : r.alive = true) (hl : r.locks ip = some h)
  (hv : h.valid = true)
    (hc : h.clean = true) (h0 : h.attr.type ≠ 0) (hr : (r.setLock ip none).Resting) :
    Uses sb t (do iunlock ip; end_op; return (fd.val : Int)) r fun v r' => Failed r₀ v r' :=
  step_iunlock ha hl hv hc h0 (step_end_op ha (Failed.fd hr))

theorem open_file_safe (hr : r.Resting) (hm : m.type ≠ 0) :
    Uses sb t (open_file omode ip) ((r.addRef ip).setLock ip (some (.of m)))
      fun v r' => Failed r v r' := by
  have ha := hr.alive
  have hbad : ∀ {r' : Res}, r'.Resting → r'.ofile = r.ofile →
      Uses sb t (open_bad ip) ((r'.addRef ip).setLock ip (some (.of m))) fun v r' =>
        Failed r v r' := by
    intro r' hr' ho
    exact put_end_safe hr'.alive hm (congrFun hr'.locks ip) ⟨hr', fun _ => ho⟩
  refine step_attr ha locks_setLock_self rfl ?_
  split
  · exact hbad hr rfl
  · refine .step ⟨ha, trivial⟩ ?_
    rintro (_ | f) r1 hr1
    · obtain rfl := hr1
      exact hbad hr rfl
    · obtain ⟨-, rfl⟩ := hr1
      refine .step ⟨ha, trivial⟩ ?_
      rintro (_ | fd) r2 hr2
      · -- no descriptor: the file is given back
        obtain rfl := hr2
        refine seq (fileclose_safe (f := f) ha newFile_pos hr.doomed ?_) ?_
        · exact (Res.Backs.of_none hr.locks).addRef.setLock refs_addRef_pos
        · rintro _ r3 rfl
          exact hbad hr.giveBack rfl
      · obtain ⟨hnone, rfl⟩ := hr2
        refine .step ⟨ha, update_self .., refs_addRef_pos⟩ ?_
        intro _ r3 hr3
        obtain rfl := hr3
        have hlock : (r.opening ip f fd m).locks ip = some (.of m) := update_self ..
        have hrest : ((r.opening ip f fd m).setLock ip none).Resting := hr.opening hnone
        dsimp only
        split
        · refine step_itrunc ha hlock rfl hm ?_
          refine open_end_safe ha locks_setLock_self rfl rfl hm ?_
          rw [setLock_setLock]
          exact hrest
        · exact open_end_safe ha hlock rfl rfl hm hrest

theorem sys_open_safe (hr : r.Resting) (hroot : t → ROOTINO < sb.ninodes) :
    Uses sb t (sys_open sb past path omode) r fun v r' => Failed r v r' := by
  have ha := hr.alive
  cases path with
  | none => exact .same hr
  | some path =>
    refine step_begin_op ha ?_
    refine seq (open_path_safe hr.ready hroot) ?_
    rintro (_ | ip) r1 hr1
    · obtain rfl := hr1
      exact step_end_op ha (Failed.same hr)
    · obtain ⟨m, hm, rfl⟩ := hr1
      refine seq (open_follow_safe hr.ready hroot hm) ?_
      rintro (_ | jp) r2 hr2
      · obtain rfl := hr2
        exact step_end_op ha (Failed.same hr)
      · obtain ⟨m', hm', rfl⟩ := hr2
        exact open_file_safe hr hm'

/-! ## Pipes -/

section Pipe

variable {f0 f1 : Fin NFILE} {fr : Fin NFILE → Bool} {page : Option Nat}

theorem Res.addFile_pos : 0 < (r.addFile f).files f := newFile_pos (r := r)

theorem Res.addFile_le {g : Fin NFILE} : r.files g ≤ (r.addFile f).files g := by
  show r.files g ≤ update r.files f (r.files f + 1) g
  by_cases hg : g = f
  · rw [hg, update_self]
    exact le_succ _
  · rw [update_of_ne hg]

/-- Two files are given back. -/
theorem Res.files_giveBack :
    (((((r.addFile f0).addFile f1).dropFile f0).dropFile f1)).files = r.files := by
  funext g
  unfold dropFile addFile
  dsimp only
  simp only [update_apply]
  split_ifs <;> subst_vars <;> omega

variable (hr : r.Resting)
include hr

/-- The resources after both files of a pipe that was not made are closed; they
    have been set up or not. -/
theorem Res.Resting.closeBoth (hfresh : ∀ g, fr g = true → g = f0 ∨ g = f1) :
    (({ (r.addFile f0).addFile f1 with fresh := fr }.dropFile f0).dropFile f1).Resting := by
  refine { hr with files := (files_giveBack (r := r)).trans hr.files, fresh := ?_ }
  funext g
  show update (update fr f0 false) f1 false g = false
  simp only [update_apply]
  split_ifs with h1 h0
  · rfl
  · rfl
  · rw [← Bool.not_eq_true]
    exact fun hg => (hfresh g hg).elim h0 h1

/-- Both files are closed. -/
theorem closeBoth_safe (hfresh : ∀ g, fr g = true → g = f0 ∨ g = f1) :
    Uses sb t (do fileclose f0; fileclose f1; return v)
      { (r.addFile f0).addFile f1 with fresh := fr }
      fun v' r' => v' = v ∧ r'.Resting ∧ r'.ofile = r.ofile := by
  have ha := hr.alive
  have hpos1 : 0 < update ((r.addFile f0).addFile f1).files f0
      (((r.addFile f0).addFile f1).files f0 - 1) f1 := by
    unfold addFile
    dsimp only
    simp only [update_apply]
    split_ifs <;> omega
  have hpos0 := lt_of_lt_of_le addFile_pos (addFile_le (r := r.addFile f0) (f := f1))
  refine next (fileclose_safe ha hpos0 hr.doomed (.of_none hr.locks)) fun _ => ?_
  refine next (fileclose_safe ha hpos1 hr.doomed (.of_none hr.locks)) fun _ => ?_
  exact ⟨rfl, hr.closeBoth hfresh, rfl⟩

/-- The files of a pipe have been set up. -/
theorem Res.piped {r₂ r₃ : Res}
    (h₁ : r₁ = ((((r.newFile f0).newFile f1).addEnd (pi, false)).addEnd (pi, true)))
    (h₂ : r₂ = { r₁.dropEnd (pi, false) with fresh := update r₁.fresh f0 false })
    (h₃ : r₃ = { r₂.dropEnd (pi, true) with fresh := update r₂.fresh f1 false }) :
    r₃ = (r.addFile f0).addFile f1 := by
  have hfresh : update (update ((r.newFile f0).newFile f1).fresh f0 false) f1 false = r.fresh := by
    funext g
    show update (update (update (update r.fresh f0 true) f1 true) f0 false)
      f1 false g = r.fresh g
    simp only [update_apply, hr.fresh]
    split_ifs <;> rfl
  have hback : (r₁.dropEnd (pi, false)).dropEnd (pi, true) = (r.newFile f0).newFile f1 := by
    rw [h₁, addEnd_comm, dropEnd_addEnd, dropEnd_addEnd]
  calc r₃ = { (r₁.dropEnd (pi, false)).dropEnd (pi, true) with
        fresh := update (update r₁.fresh f0 false) f1 false } := by rw [h₃, h₂]; rfl
    _ = { (r.newFile f0).newFile f1 with fresh := r.fresh } := by rw [hback, ← hfresh, h₁]; rfl
    _ = (r.addFile f0).addFile f1 := rfl

theorem pipealloc_safe :
    Uses sb t (pipealloc page) r fun o r' =>
      match o with
      | none => r'.Resting ∧ r'.ofile = r.ofile
      | some (f0, f1) => r' = (r.addFile f0).addFile f1 := by
  have ha := hr.alive
  refine .step ⟨ha, trivial⟩ ?_
  rintro (_ | f0) r1 hr1
  · obtain rfl := hr1
    exact ⟨hr, rfl⟩
  · obtain ⟨-, hr1⟩ := hr1
    obtain rfl := show r1 = r.newFile f0 from hr1
    refine .step ⟨ha, trivial⟩ ?_
    rintro (_ | f1) r2 hr2
    · obtain rfl := hr2
      refine next (fileclose_safe ha newFile_pos hr.doomed (.of_none hr.locks)) fun _ => ?_
      exact ⟨hr.giveBack, rfl⟩
    · obtain ⟨h0, hr2⟩ := hr2
      have hne : f1 ≠ f0 := by
        rintro rfl
        have := newFile_pos (r := r) (f := f1)
        omega
      obtain rfl := hr2
      have hfresh0 : ((r.newFile f0).newFile f1).fresh f0 = true := by
        show update (update r.fresh f0 true) f1 true f0 = true
        rw [update_of_ne hne.symm, update_self]
      refine .step ⟨ha, trivial⟩ ?_
      rintro (_ | pi) r3 hr3
      · obtain rfl := hr3
        refine mono (closeBoth_safe hr ?_) ?_
        · intro g hg
          by_contra hc
          obtain ⟨h0, h1⟩ := not_or.mp hc
          change update (update r.fresh f0 true) f1 true g = true at hg
          rw [update_of_ne h1, update_of_ne h0, hr.not_fresh] at hg
          cases hg
        · rintro _ r' ⟨rfl, hr'⟩
          exact hr'
      · have hr3 : r3 = (((r.newFile f0).newFile f1).addEnd (pi, false)).addEnd (pi, true) := hr3
        have hends : ∀ w, 0 < r3.ends (pi, w) := by
          intro w
          rw [hr3]
          unfold addEnd
          dsimp only
          simp only [update_apply]
          cases w <;> simp
        have ha3 : r3.alive = true := by
          rw [hr3]
          exact ha
        refine .step ⟨ha3, by rw [hr3]; exact hfresh0, hends false⟩ ?_
        intro _ r4 hr4
        have hr4 : r4 = _ := hr4
        refine .step ⟨by rw [hr4]; exact ha3, ?_, ?_⟩ ?_
        · rw [hr4]
          show update r3.fresh f0 false f1 = true
          rw [update_of_ne hne, hr3]
          exact update_self ..
        · rw [hr4]
          show 0 < update r3.ends (pi, false) _ (pi, true)
          rw [update_of_ne (fun hc => by cases hc)]
          exact hends true
        · intro _ r5 hr5
          exact piped hr hr3 hr4 hr5

theorem pipe_bad_safe :
    Uses sb t (pipe_bad f0 f1) ((r.addFile f0).addFile f1) fun v r' => Failed r v r' := by
  refine mono (closeBoth_safe hr ?_) ?_
  · intro g hg
    change r.fresh g = true at hg
    rw [hr.not_fresh] at hg
    cases hg
  · rintro v r' ⟨rfl, hr', ho⟩
    exact ⟨hr', fun _ => ho⟩

theorem sys_pipe_safe {args copied : Bool} :
    Uses sb t (sys_pipe page args copied) r fun v r' => Failed r v r' := by
  have ha := hr.alive
  refine ite (fun _ => .pure (.same hr)) fun _ => ?_
  refine seq (pipealloc_safe hr) ?_
  rintro (_ | ⟨rf, wf⟩) r1 hr1
  · exact ⟨hr1.1, fun _ => hr1.2⟩
  · obtain rfl := hr1
    refine .step ⟨ha, trivial⟩ ?_
    rintro (_ | fd0) r2 hr2
    · obtain rfl := hr2
      exact pipe_bad_safe hr
    · obtain ⟨h0, rfl⟩ := hr2
      refine .step ⟨ha, trivial⟩ ?_
      rintro (_ | fd1) r3 hr3
      · -- no second descriptor
        obtain rfl := hr3
        refine .step ⟨ha, trivial⟩ ?_
        intro _ r4 hr4
        have hback : update (update r.ofile fd0 (some rf)) fd0 none = r.ofile := by
          rw [update_idem, ← show r.ofile fd0 = none from h0, update_eq_self]
        have hr4 : r4 = (r.addFile rf).addFile wf := by
          rw [show r4 = _ from hr4]
          show { (r.addFile rf).addFile wf with
            ofile := update (update r.ofile fd0 (some rf)) fd0 none } = _
          rw [hback]
          rfl
        rw [hr4]
        exact pipe_bad_safe hr
      · obtain ⟨h1, rfl⟩ := hr3
        have h0 : r.ofile fd0 = none := h0
        change update r.ofile fd0 (some rf) fd1 = none at h1
        have hfd : fd1 ≠ fd0 := by
          rintro rfl
          rw [update_self] at h1
          cases h1
        dsimp only
        refine ite (fun _ => ?_) fun _ => ?_
        · refine ⟨{ hr with files := ?_ }, fun hc => by cases hc⟩
          show ((r.addFile rf).addFile wf).files =
            slots (update (update r.ofile fd0 (some rf)) fd1 (some wf))
          rw [slots_set h1, slots_set h0, ← hr.files]
          rfl
        · refine .stepTo ⟨ha, trivial⟩ (fun _ _ hp => hp) fun _ => ?_
          refine .step ⟨ha, trivial⟩ ?_
          intro _ r5 hr5
          have hback : update (update (update (update r.ofile fd0 (some rf)) fd1
              (some wf)) fd0 none) fd1 none = r.ofile := by
            rw [update_of_ne hfd] at h1
            funext fd
            simp only [update_apply]
            split_ifs with h2 h3
            · rw [h2, h1]
            · rw [h3, h0]
            · rfl
          have hr5 : r5 = (r.addFile rf).addFile wf := by
            rw [show r5 = _ from hr5]
            show { (r.addFile rf).addFile wf with ofile := update (update (update
              (update r.ofile fd0 (some rf)) fd1 (some wf)) fd0 none) fd1 none } = _
            rw [hback]
            rfl
          rw [hr5]
          exact pipe_bad_safe hr

end Pipe

/-! ## The working directory -/

theorem refs_addCwd : (r.addRef ip).refs = fun jp => r.refs jp + cwdRefs (some ip) jp := by
  funext jp
  by_cases hj : jp = ip
  · rw [hj, refs_addRef_self, cwdRefs, if_pos rfl]
  · rw [refs_addRef_of_ne hj, cwdRefs, if_neg fun hc => hj (Option.some.inj hc).symm]
    rfl

theorem refs_dropCwd (h : r.refs = cwdRefs (some ip)) : (r.dropRef ip).refs = fun _ => 0 := by
  funext jp
  by_cases hj : jp = ip
  · rw [hj, refs_dropRef_self, h, cwdRefs, if_pos rfl]
  · rw [refs_dropRef_of_ne hj, h, cwdRefs, if_neg fun hc => hj (Option.some.inj hc).symm]

theorem refs_chdir {old new : Fin NINODE} (hpos : 0 < r.refs old)
    (h : r.refs = cwdRefs (some old)) : ((r.addRef new).dropRef old).refs = cwdRefs (some new) := by
  rw [dropRef_addRef_comm hpos, refs_addCwd, refs_dropCwd h]
  exact funext fun _ => Nat.zero_add _

theorem sys_chdir_safe (hr : r.Resting) (hroot : t → ROOTINO < sb.ninodes) :
    Uses sb t (sys_chdir path) r fun _ r' => r'.Resting := by
  have ha := hr.alive
  have hfree := congrFun hr.locks
  cases path with
  | none => exact step_begin_op ha (step_end_op ha hr)
  | some path =>
    refine step_begin_op ha ?_
    refine seq (namei_safe hr.ready hroot) ?_
    rintro (_ | ip) r1 rfl
    · exact step_end_op ha hr
    · refine step_ilock ha (.inl refs_addRef_pos) fun m _ hm => ?_
      refine step_attr ha locks_setLock_self rfl ?_
      split
      · exact put_end_safe ha hm (hfree ip) hr
      · refine step_iunlock ha locks_setLock_self rfl rfl hm ?_
        rw [setLock_none (r := r.addRef ip) (hfree ip)]
        refine step_cwd ha fun old hcwd => ?_
        have hcwd : r.cwd = some old := hcwd
        have hpos := hr.ready.cwd old hcwd
        refine next (iput_safe ha (refs_pos_addRef hpos) fun hl => absurd (hfree old) hl)
          fun _ => ?_
        refine step_end_op ha ?_
        refine .stepTo ⟨ha, trivial⟩ (fun _ _ hp => hp) fun _ => ?_
        refine { hr with refs := ?_ }
        exact refs_chdir hpos (hr.refs.trans (by rw [hcwd]))

/-! ## `exec` -/

section

variable {mem : Nat → Bool} {offset sz n i off : Nat} {pagetable : Bool} (ha : r.alive = true)
  (hl : r.locks ip = some h) (hv : h.valid = true)
include ha hl hv

theorem loadseg_loop_safe : Uses sb t (loadseg_loop ip offset sz n i) r (Same r) := by
  induction n generalizing i with
  | zero => exact rfl
  | succ n ih =>
    refine step_readi ha hl hv (fun _ => ⟨Nat.mod_lt _ (Nat.two_pow_pos 32), ?_⟩) fun b _ => ?_
    · exact lt_of_le_of_lt (Nat.min_le_right _ _) (by decide)
    · dsimp only
      split
      · exact rfl
      · exact ih

theorem exec_loop_safe : Uses sb t (exec_loop mem ip n i off) r (Same r) := by
  induction n generalizing i off with
  | zero => exact rfl
  | succ n ih =>
    refine step_readi ha hl hv (fun _ => ⟨Nat.mod_lt _ (Nat.two_pow_pos 32), by decide⟩)
      fun b _ => ?_
    have hfail : Uses sb t (pure false) r (Same r) := .pure rfl
    obtain ⟨v, ph⟩ := b
    refine ite (fun _ => hfail) fun _ => ?_
    generalize field ph 0 4 = type, field ph 40 8 = memsz, field ph 32 8 = filesz,
      field ph 16 8 = vaddr, field ph 8 8 = offset
    refine ite (fun _ => ih) fun _ => ?_
    refine ite (fun _ => hfail) fun _ => ?_
    refine ite (fun _ => hfail) fun _ => ?_
    refine ite (fun _ => hfail) fun _ => ?_
    refine ite (fun _ => hfail) fun _ => ?_
    refine seq (loadseg_loop_safe ha hl hv) ?_
    rintro (_ | _) r' rfl
    · exact rfl
    · exact ih

theorem exec_load_safe : Uses sb t (exec_load pagetable mem ip) r (Same r) := by
  refine step_readi ha hl hv (fun _ => by decide) fun b _ => ?_
  exact ite (fun _ => rfl) fun _ => ite (fun _ => rfl) fun _ => ite (fun _ => rfl) fun _ =>
    exec_loop_safe ha hl hv

end

theorem execve_safe {pagetable : Bool} {path : Bytes} (hr : r.Ready)
    (hroot : t → ROOTINO < sb.ninodes) : Uses sb t (execve pagetable mem rest path) r (Same r) := by
  have ha := hr.alive
  refine step_begin_op ha ?_
  refine seq (namei_safe hr hroot) ?_
  rintro (_ | ip) r1 rfl
  · exact step_end_op ha rfl
  · refine step_ilock ha (.inl refs_addRef_pos) fun m _ hm => ?_
    refine next (exec_load_safe ha locks_setLock_self rfl) fun loaded => ?_
    exact put_end_safe ha hm (congrFun hr.locks ip) rfl

theorem sys_exec_safe {args pagetable : Bool} (hr : r.Ready) (hroot : t → ROOTINO < sb.ninodes) :
    Uses sb t (sys_exec args pagetable mem rest path) r (Same r) := by
  cases path with
  | none => exact rfl
  | some path =>
    cases args with
    | false => exact rfl
    | true => exact execve_safe hr hroot

/-! ## `fork` and `exit` -/

/-- The parent while the child has the descriptors `o`. -/
def Res.forking (r : Res) (np : Pid) (o : Fin NOFILE → Option (Fin NFILE)) : Res :=
  { r with files := fun f => r.files f + slots o f, child := some ⟨np, none, o⟩ }

theorem fork_files_safe {np : Pid} {o : Fin NOFILE → Option (Fin NFILE)}
    (hr : r.Resting) (hd : fds.Nodup) (ho : ∀ fd ∈ fds, o fd = none) :
    Uses sb t (fork_files np fds) (r.forking np o) fun _ r' => ∃ o', r' = r.forking np o' := by
  have ha := hr.alive
  induction fds generalizing o with
  | nil => exact ⟨o, rfl⟩
  | cons fd fds ih =>
    obtain ⟨hfd, hd⟩ := List.nodup_cons.mp hd
    refine .step ⟨ha, trivial⟩ ?_
    rintro b r1 ⟨rfl, rfl⟩
    cases hf : (r.forking np o).ofile fd with
    | none => exact ih hd fun fd' hm => ho fd' (List.mem_cons_of_mem _ hm)
    | some f =>
      have hpos : 0 < (r.forking np o).files f :=
        lt_of_lt_of_le (hr.files_pos hf) (le_add_right _ _)
      refine .stepTo ⟨ha, hpos, hr.not_fresh f⟩ (fun _ _ hp => hp) fun _ => ?_
      refine .step ⟨ha, _, rfl, rfl⟩ ?_
      intro _ r3 hr3
      have hr3 : r3 = r.forking np (update o fd (some f)) := by
        rw [show r3 = _ from hr3 _ rfl]
        unfold forking
        dsimp only
        congr 1
        funext g
        rw [slots_set (ho fd List.mem_cons_self)]
        show update (fun f => r.files f + slots o f) f _ g = _
        by_cases hg : g = f
        · rw [hg, update_self, update_self]
          rfl
        · rw [update_of_ne hg, update_of_ne hg]
      rw [hr3]
      refine ih hd fun fd' hm => ?_
      have hne : fd' ≠ fd := fun he => hfd (by rw [← he]; exact hm)
      rw [update_of_ne hne]
      exact ho fd' (List.mem_cons_of_mem _ hm)

theorem fork_safe {mem : Bool} (hr : r.Resting) :
    Uses sb t (fork mem) r fun _ r' => r'.Resting := by
  have ha := hr.alive
  refine .step ⟨ha, hr.child⟩ ?_
  rintro (_ | np) r1 hr1
  · obtain rfl := hr1
    exact hr
  · have hfiles : (fun f => r.files f + slots (fun _ => none) f) = r.files := by
      funext f
      rw [slots_none]
      rfl
    have hr1 : r1 = r.forking np fun _ => none := by
      rw [show r1 = _ from hr1]
      unfold forking
      rw [hfiles]
    rw [hr1]
    dsimp only
    split
    · refine seq (fork_files_safe hr (List.nodup_finRange NOFILE) fun _ _ => rfl) ?_
      rintro _ r2 ⟨o, rfl⟩
      refine step_cwd ha fun ip hcwd => ?_
      refine step_idup ha (hr.ready.cwd ip hcwd) ?_
      refine .step ⟨ha, _, rfl, rfl⟩ ?_
      intro _ r4 hr4
      obtain rfl := show r4 = _ from hr4 _ rfl
      refine .step ⟨ha, hr.locks, hr.fresh, _, rfl, rfl, ?_, ?_⟩ ?_
      · intro jp
        show cwdRefs (some ip) jp ≤ (r.addRef ip).refs jp
        rw [refs_addCwd]
        exact Nat.le_add_left _ _
      · exact fun f => Nat.le_add_left _ _
      · intro _ r5 hr5
        obtain rfl := show r5 = _ from hr5 _ rfl
        refine { hr with refs := ?_, files := ?_, child := rfl }
        · show (fun jp => (r.addRef ip).refs jp - cwdRefs (some ip) jp) = cwdRefs r.cwd
          rw [refs_addCwd, ← hr.refs]
          funext jp
          exact Nat.add_sub_cancel _ _
        · show (fun f => r.files f + slots o f - slots o f) = slots r.ofile
          rw [← hr.files]
          funext f
          exact Nat.add_sub_cancel _ _
    · refine .stepTo ⟨ha, _, rfl, rfl, rfl, rfl⟩ (fun _ _ hp => hp) fun _ => ?_
      refine { hr with files := ?_, child := rfl }
      show (fun f => r.files f + slots (fun _ => none) f) = slots r.ofile
      rw [hfiles]
      exact hr.files

theorem exit_files_safe (hr : r.Resting) :
    Uses sb t (exit_files fds) r fun _ r' =>
      r'.Resting ∧ ∀ fd, r.ofile fd = none ∨ fd ∈ fds → r'.ofile fd = none := by
  induction fds generalizing r with
  | nil => exact ⟨hr, fun fd h => h.resolve_right fun hc => by cases hc⟩
  | cons fd fds ih =>
    have ha := hr.alive
    refine .step ⟨ha, trivial⟩ ?_
    rintro b r1 ⟨rfl, rfl⟩
    cases hf : r1.ofile fd with
    | none =>
      refine mono (ih hr) ?_
      rintro _ r' ⟨hr', hnone⟩
      refine ⟨hr', fun fd' h => ?_⟩
      rcases h with h | h
      · exact hnone fd' (.inl h)
      · rcases List.mem_cons.mp h with rfl | h
        · exact hnone fd' (.inl hf)
        · exact hnone fd' (.inr h)
    | some f =>
      refine next (fileclose_safe ha (hr.files_pos hf) hr.doomed (.of_none hr.locks)) fun _ => ?_
      refine .stepTo ⟨ha, trivial⟩ (fun _ _ hp => hp) fun _ => ?_
      refine mono (ih (hr.close hf)) ?_
      rintro _ r' ⟨hr', hnone⟩
      refine ⟨hr', fun fd' h => hnone fd' ?_⟩
      by_cases he : fd' = fd
      · left
        show update r1.ofile fd none fd' = none
        rw [he, update_self]
      · rcases h with h | h
        · left
          show update r1.ofile fd none fd' = none
          rw [update_of_ne he]
          exact h
        · exact .inr ((List.mem_cons.mp h).resolve_left he)

theorem exit_safe (hr : r.Resting) : Uses sb t exit r fun _ r' => r' = .dead := by
  refine seq (exit_files_safe hr) ?_
  rintro _ r1 ⟨hr1, hnone⟩
  have ha := hr1.alive
  have hofile : r1.ofile = fun _ => none := funext fun fd => hnone fd (.inr (List.mem_finRange fd))
  refine step_begin_op ha ?_
  refine step_cwd ha fun ip hcwd => ?_
  refine next (iput_safe ha (hr1.ready.cwd ip hcwd) fun hl => absurd (congrFun hr1.locks ip) hl)
    fun _ => ?_
  refine step_end_op ha ?_
  refine .stepTo ⟨ha, trivial⟩ (fun _ _ hp => hp) fun _ => ?_
  refine .step ⟨ha, { hr1 with refs := ?_ }, rfl, hofile⟩ ?_
  · exact refs_dropCwd (hr1.refs.trans (by rw [hcwd]))
  · intro _ r5 hr5
    exact hr5

/-! ## All calls -/

/-- **Every call gives back what it took**: a process that holds its working
    directory and its descriptors before the call holds them after it, whatever
    path the call takes. -/
theorem call_safe {c : Call} (hr : r.Resting) (hroot : t → ROOTINO < sb.ninodes) :
    Uses sb t (c.code sb) r fun _ r' => r'.Idle := by
  have hback : ∀ x : Code Int, Uses sb t x r (fun _ r' => r' = r) →
      Uses sb t x r fun _ r' => r'.Idle := by
    intro x hx
    refine mono hx ?_
    rintro _ r' rfl
    exact .inr hr
  have hrest : ∀ x : Code Int, Uses sb t x r (fun _ r' => r'.Resting) →
      Uses sb t x r fun _ r' => r'.Idle :=
    fun x hx => mono hx fun _ _ h => .inr h
  have hfail : ∀ x : Code Int, Uses sb t x r (fun v r' => Failed r v r') →
      Uses sb t x r fun _ r' => r'.Idle :=
    fun x hx => mono hx fun _ _ h => .inr h.1
  cases c with
  | sys_open past path omode => exact hfail _ (sys_open_safe hr hroot)
  | sys_link old new => exact hback _ (sys_link_safe hr.ready hroot)
  | sys_unlink path => exact hback _ (sys_unlink_safe hr.ready hroot)
  | sys_mkdir path => exact hback _ (sys_mkdir_safe hr.ready hroot)
  | sys_mknod major minor path => exact hback _ (sys_mknod_safe hr.ready hroot)
  | sys_symlink past target path => exact hback _ (sys_symlink_safe hr.ready hroot)
  | sys_chdir path => exact hrest _ (sys_chdir_safe hr hroot)
  | sys_exec args pagetable mem rest path => exact hback _ (sys_exec_safe hr.ready hroot)
  | sys_dup fd => exact hfail _ (sys_dup_safe hr)
  | sys_pipe page args copied => exact hfail _ (sys_pipe_safe hr)
  | sys_close fd => exact hrest _ (sys_close_safe hr)
  | sys_read cp other fd addr n =>
    exact hrest _ (sys_read_safe hr (Nat.mod_lt _ (Nat.two_pow_pos 32)))
  | sys_write cp other fd addr n => exact hrest _ (sys_write_safe hr)
  | fork mem => exact hrest _ (fork_safe hr)
  | exit => exact mono (exit_safe hr) fun _ _ h => .inl h
  | wait np =>
    refine hback _ (.step ⟨hr.alive, trivial⟩ ?_)
    intro _ r' hr'
    exact hr'

end Triples

end NoviceKernel.Sys
