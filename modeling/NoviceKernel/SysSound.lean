import NoviceKernel.SysRes

/-! # Commands keep the invariant

    How the resources of one process can change while `Holds` stays true, then
    one lemma for every command, and their sum: every command that a process
    executes with the resources it needs keeps `Holds` (`sound`). -/

namespace NoviceKernel.Sys

open FS Hoare Program Count Function Option Nat

variable {proc : Pid → Proc} {ch : Child} {x : File} {c : Cmd} {b : c.Ret} {F : Fin NFILE → File}
  {e : Nat × Bool}
variable {r : Res} {pi : Nat} {np : Pid}

section Lemmas

variable {sb : Superblock} {t : Prop} {a a' : Abs} {R R' : Pid → Res} {p q : Pid}
  {ip jp : Fin NINODE} {f : Fin NFILE} {u : Res} {h : Hold} {cwd : Option (Fin NINODE)}
  {g : Fin NFILE} {k : Nat} {ofile : Fin NOFILE → Option (Fin NFILE)} {proc' : Pid → Proc}

/-! ## Changes of one process's resources -/

theorem of_some {α : Type} {o : Option α} {x : α} {P : α → Prop} (h : o = some x) (hx : P x) :
    ∀ y, o = some y → P y := by
  intro y hy
  rw [h] at hy
  rwa [← some.inj hy]

theorem ne_of_dead (hd : (R q).alive = false) (ha : (R p).alive = true) : q ≠ p := by
  rintro rfl
  rw [ha] at hd
  cases hd

/-- A process changes its own slot, or that of its child. -/
theorem Procs.change (hp : Procs proc R) (h1 : u.alive = true)
    (hself : proc' p = ⟨.ALIVE, u.cwd, u.ofile⟩)
    (hchild : ∀ ch, u.child = some ch → proc' ch.np = ⟨.EMBRYO, ch.cwd, ch.ofile⟩ ∧
      ∀ q, q ≠ p → ∀ ch', (R q).child = some ch' → ch'.np ≠ ch.np)
    (hnew : ∀ q, q ≠ p → (proc' q).state = .ALIVE → (proc q).state = .ALIVE)
    (hown : ∀ q, q ≠ p → (R q).alive = true → proc' q = proc q)
    (hothers : ∀ q, q ≠ p → ∀ ch, (R q).child = some ch → proc' ch.np = proc ch.np)
    (hspare : ∀ q, q ≠ p → Spare (update R p u) q →
      (proc' q).cwd = none ∧ (proc' q).ofile = fun _ => none) :
    Procs proc' (update R p u) := by
  refine ⟨fun q => ?_, fun q => ?_, fun q => ?_, fun q ch => ?_, fun q q' ch ch' hc hc' he => ?_,
    fun q hs => hspare q ?_ hs⟩
  · exact update_one q (fun _ => h1) fun q hq hs => hp.alive q (hnew q hq hs)
  · exact update_one q (fun hd => by rw [h1] at hd; cases hd) fun q _ => hp.dead q
  · refine update_one q (fun _ => hself) fun q hq ha => ?_
    rw [hown q hq ha]
    exact hp.own q ha
  · refine update_one q (fun hc => (hchild ch hc).1) fun q hq hc => ?_
    rw [hothers q hq ch hc]
    exact hp.child q ch hc
  · by_cases hq : q = p <;> by_cases hq' : q' = p
    · rw [hq, hq']
    · rw [hq, update_self] at hc
      rw [update_of_ne hq'] at hc'
      exact absurd he.symm ((hchild ch hc).2 q' hq' ch' hc')
    · rw [update_of_ne hq] at hc
      rw [hq', update_self] at hc'
      exact absurd he ((hchild ch' hc').2 q hq ch hc)
    · rw [update_of_ne hq] at hc
      rw [update_of_ne hq'] at hc'
      exact hp.parent q q' ch ch' hc hc' he
  · rintro rfl
    have := hs.1
    rw [update_self, h1] at this
    cases this

/-- Slots are spare as before, if the process has the same child. -/
theorem Spare.of_update (h : Spare (update R p u) q) (hq : q ≠ p) (hc : u.child = (R p).child) :
    Spare R q := by
  refine ⟨?_, fun q' ch hch => h.2 q' ch ((update_proj (g := Res.child) hc q').trans hch)⟩
  have := h.1
  rwa [update_of_ne hq] at this

theorem Procs.other_child (hp : Procs proc R) (hc : (R p).child = some ch) :
    ∀ q, q ≠ p → ∀ ch', (R q).child = some ch' → ch'.np ≠ ch.np :=
  fun q hq ch' hc' he => hq (hp.parent q p ch' ch hc' hc he)

/-- What a process holds of inodes and files may change freely. -/
theorem Procs.keep (hp : Procs proc R) (halive : (R p).alive = true)
    (h1 : u.alive = true) (h2 : u.cwd = (R p).cwd) (h3 : u.ofile = (R p).ofile)
    (h4 : u.child = (R p).child) : Procs proc (update R p u) := by
  refine hp.change h1 (by rw [h2, h3]; exact hp.own p halive) ?_ (fun _ _ h => h) (fun _ _ _ => rfl)
    (fun _ _ _ _ => rfl) fun q hq hs => hp.spare q (hs.of_update hq h4)
  intro ch hc
  rw [h4] at hc
  exact ⟨hp.child p ch hc, hp.other_child hc⟩

/-- One process's references change, and the counts with them. -/
theorem Counts.change (hc : Counts a R)
    (hi : ∀ ip, (a'.inode ip).ref + (filesOn a.ftable ip + (R p).refs ip) =
      (a.inode ip).ref + (filesOn a'.ftable ip + u.refs ip))
    (hf : ∀ f, (a'.ftable f).ref + (R p).files f = (a.ftable f).ref + u.files f)
    (hclosed : ∀ f, (a'.ftable f).ref = 0 → (a'.ftable f).type = .FD_NONE)
    (hoff : ∀ f, (a'.ftable f).off < 2 ^ 32)
    (hfresh : ∀ f, u.fresh f = true →
      (a'.ftable f).type = .FD_NONE ∧ (a'.ftable f).ref = 1 ∧ u.files f = 1)
    (hseen : ∀ f ip, u.seen f = some ip → 0 < u.files f ∧ (a'.ftable f).inode = some ip)
    (hothers : ∀ q, q ≠ p → ∀ f, (R q).fresh f = true → a'.ftable f = a.ftable f)
    (hothers' : ∀ q, q ≠ p → ∀ f ip, (R q).seen f = some ip → (a'.ftable f).inode = some ip) :
    Counts a' (update R p u) := by
  refine ⟨fun ip => ?_, fun f => ?_, hclosed, hoff, fun q f => ?_, fun q f ip => ?_⟩
  · have h1 := hc.iref ip
    have h2 := hi ip
    have h3 := refsTo_update ip (R := R) (p := p) (u := u)
    omega
  · have h1 := hc.fref f
    have h2 := hf f
    have h3 := filesTo_update f (R := R) (p := p) (u := u)
    omega
  · refine update_one q (hfresh f) fun q he hq => ?_
    rw [hothers q he f hq]
    exact hc.fresh q f hq
  · refine update_one q (hseen f ip) fun q he hq => ?_
    exact ⟨(hc.seen q f ip hq).1, hothers' q he f ip hq⟩

/-- The same, with the files as they are. -/
theorem Counts.keepFiles (hc : Counts a R) (hft : a'.ftable = a.ftable)
    (hi : ∀ ip, (a'.inode ip).ref + (R p).refs ip = (a.inode ip).ref + u.refs ip)
    (h1 : u.files = (R p).files) (h2 : u.seen = (R p).seen) (h3 : u.fresh = (R p).fresh) :
    Counts a' (update R p u) := by
  refine hc.change ?_ ?_ ?_ ?_ ?_ ?_ ?_ ?_
  · intro ip
    have := hi ip
    rw [hft]
    omega
  · intro f
    rw [hft, h1]
  · rw [hft]
    exact hc.closed
  · rw [hft]
    exact hc.off
  · rw [hft, h1, h3]
    exact hc.fresh p
  · rw [hft, h1, h2]
    exact hc.seen p
  · intro q _ f _
    rw [hft]
  · intro q _ f ip hq
    rw [hft]
    exact (hc.seen q f ip hq).2

section

variable (hp : Pipes a R) (hpipe : a'.pipe = a.pipe)
include hp hpipe

/-- References to ends of pipes change, and the files on them. -/
theorem Pipes.move (he : ∀ e, filesAt a'.ftable e + endsTo R' e = filesAt a.ftable e + endsTo R e)
    (hd : ∀ q, (R' q).doomed = (R q).doomed) : Pipes a' R' := by
  refine ⟨fun pi w => ?_, fun q pi hq => ?_, fun pi hc => ?_, fun q q' pi hq hq' => ?_⟩
  · rw [hpipe, he]
    exact hp.count pi w
  · rw [hd] at hq
    rw [hpipe]
    exact hp.doomed q pi hq
  · rw [hpipe] at hc
    obtain ⟨q, hq⟩ := hp.closed pi hc
    exact ⟨q, by rw [hd]; exact hq⟩
  · rw [hd] at hq hq'
    exact hp.one q q' pi hq hq'

/-- The same for one process. -/
theorem Pipes.change (he : ∀ e, filesAt a'.ftable e + u.ends e = filesAt a.ftable e + (R p).ends e)
    (hd : u.doomed = (R p).doomed) : Pipes a' (update R p u) := by
  refine hp.move hpipe (fun e => ?_) (update_proj (g := Res.doomed) hd)
  have h1 := he e
  have h2 := endsTo_update e (R := R) (p := p) (u := u)
  omega

/-- The same, with the files as they are. -/
theorem Pipes.keep (hft : a'.ftable = a.ftable)
    (he : u.ends = (R p).ends) (hd : u.doomed = (R p).doomed) : Pipes a' (update R p u) :=
  hp.change hpipe (fun e => by rw [hft, he]) hd

end

open Abs

theorem Stored.keep (hst : Stored a ip) (hentry : ∃ k, a'.inode ip = { a.inode ip with ref := k })
    (hnode : a.nodeOf ip ≠ none → a'.node (a.inum ip) = a.nodeOf ip) : Stored a' ip := by
  obtain ⟨data, hd⟩ := hst
  obtain ⟨k, hk⟩ := hentry
  refine ⟨data, ?_⟩
  rw [nodeOf, inum, hk]
  exact (hnode (by rw [hd]; exact some_ne_none _)).trans hd

theorem Knows.keep (hk : Knows t a ip h) (hentry : ∃ k, a'.inode ip = { a.inode ip with ref := k })
    (hst : t → Stored a ip → Stored a' ip) : Knows t a' ip h := by
  obtain ⟨k, hk'⟩ := hentry
  refine ⟨?_, ?_, ?_, fun ht hv hcl hne => hst ht (hk.clean ht hv hcl hne)⟩
  · rw [hk']; exact hk.valid
  · rw [hk']; exact hk.attr
  · rw [hk']; exact hk.bare

section

variable (hl : Locks t a R) (hc : Counts a R)
include hl hc

/-- Entries and nodes of locked inodes, and of valid ones, are as they were. -/
theorem Locks.move (hlock : a'.lock = a.lock)
    (hentry : ∀ ip, 0 < (a.inode ip).ref → ∃ k, a'.inode ip = { a.inode ip with ref := k })
    (hnew : ∀ ip, (a.inode ip).ref = 0 → 0 < (a'.inode ip).ref → (a'.inode ip).valid = false)
    (hnode : t → ∀ i, a.node i ≠ none → a'.node i = a.node i)
    (hlocks : ∀ q, (R' q).locks = (R q).locks)
    (hback : ∀ q ip, (R' q).locks ip ≠ none → (R' q).Backed ip) : Locks t a' R' := by
  have hstored : ∀ ip, 0 < (a.inode ip).ref → t → Stored a ip → Stored a' ip :=
    fun ip hpos ht hst => hst.keep (hentry ip hpos) (hnode ht _)
  refine ⟨fun ip q => ?_, hback, fun q ip h hq => ?_, fun ip hnone hpos hv => ?_⟩
  · rw [hlock, hlocks]
    exact hl.lock ip q
  · rw [hlocks] at hq
    have hpos : 0 < (a.inode ip).ref := hl.ref_pos hc (q := q) (by rw [hq]; exact some_ne_none _)
    exact (hl.held q ip h hq).keep (hentry ip hpos) (hstored ip hpos)
  · rw [hlock] at hnone
    by_cases h0 : (a.inode ip).ref = 0
    · rw [hnew ip h0 hpos] at hv
      cases hv
    · have hpos' := pos_of_ne_zero h0
      obtain ⟨k, hk⟩ := hentry ip hpos'
      rw [hk] at hv
      obtain ⟨htype, hst⟩ := hl.free ip hnone hpos' hv
      exact ⟨by rw [hk]; exact htype, fun ht => hstored ip hpos' ht (hst ht)⟩

/-- The same for one process. -/
theorem Locks.keep (hlock : a'.lock = a.lock)
    (hentry : ∀ ip, 0 < (a.inode ip).ref → ∃ k, a'.inode ip = { a.inode ip with ref := k })
    (hnew : ∀ ip, (a.inode ip).ref = 0 → 0 < (a'.inode ip).ref → (a'.inode ip).valid = false)
    (hnode : t → ∀ i, a.node i ≠ none → a'.node i = a.node i) (hlocks : u.locks = (R p).locks)
    (hback : ∀ ip, u.locks ip ≠ none → u.Backed ip) : Locks t a' (update R p u) := by
  refine hl.move hc hlock hentry hnew hnode (update_proj (g := Res.locks) hlocks) fun q ip => ?_
  exact update_one q (hback ip) fun q _ => hl.backed q ip

/-- The process takes, changes or releases the lock of an inode. -/
theorem Locks.setLock (hu : a.Unique) {x : Entry} {o : Option Hold} (hpos : 0 < (a.inode ip).ref)
    (hmine : a.lock ip = none ∨ a.lock ip = some p)
    (hnode : t → ∀ j, j ≠ a.inum ip → a'.node j = a.node j)
    (hinode : a'.inode = update a.inode ip x)
    (hlock : a'.lock = update a.lock ip (o.map fun _ => p))
    (hheld : ∀ h, o = some h → (R p).Backed ip ∧ Knows t a' ip h)
    (hfree : o = none → x.valid = true → x.attr.type ≠ 0 ∧ (t → Stored a' ip)) :
    Locks t a' (update R p ((R p).setLock ip o)) := by
  have hjp : ∀ jp, jp ≠ ip → a'.inode jp = a.inode jp := fun jp hne => by
    rw [hinode, update_of_ne hne]
  have hstored : ∀ jp, jp ≠ ip → 0 < (a.inode jp).ref → t → Stored a jp → Stored a' jp :=
    fun jp hne hr ht hst => hst.keep ⟨_, hjp jp hne⟩ fun _ => hnode ht _ fun e =>
      hne (hu jp ip hr hpos e)
  have hkeep : ∀ q jp h, jp ≠ ip → (R q).locks jp = some h → Knows t a' jp h := by
    intro q jp h hne hq
    have hr : 0 < (a.inode jp).ref := hl.ref_pos hc (q := q) (by rw [hq]; exact some_ne_none _)
    exact (hl.held q jp h hq).keep ⟨_, hjp jp hne⟩ (hstored jp hne hr)
  -- nobody else holds the lock
  have hnobody : ∀ q, q ≠ p → (R q).locks ip = none := by
    intro q hq
    by_contra hc'
    have := (hl.lock ip q).mpr hc'
    rcases hmine with h0 | h1
    · rw [h0] at this; cases this
    · rw [h1] at this; exact hq (some.inj this).symm
  refine ⟨fun jp q => ?_, fun q jp => ?_, fun q jp h => ?_, fun jp => ?_⟩
  · rw [hlock]
    refine update_one q ?_ fun q hq => ?_
    · dsimp only [Res.setLock]
      refine update_both jp ?_ fun jp _ => hl.lock jp p
      cases o <;> simp
    · refine update_one jp ?_ fun jp _ => hl.lock jp q
      rw [hnobody q hq]
      cases o <;> simp [hq.symm]
  · refine update_one q ?_ fun q _ => hl.backed q jp
    show update (R p).locks ip o jp ≠ none → (R p).Backed jp
    refine update_one jp (fun ho => ?_) fun jp _ => hl.backed p jp
    obtain ⟨h, hh⟩ := ne_none_iff_exists'.mp ho
    exact (hheld h hh).1
  · refine update_one q ?_ fun q hqp hq => hkeep q jp h (fun he => ?_) hq
    · dsimp only [Res.setLock]
      exact update_one jp (fun ho => (hheld h ho).2) fun jp hne => hkeep p jp h hne
    · rw [he, hnobody q hqp] at hq
      cases hq
  · rw [hlock, hinode]
    refine update_both jp (fun hnone _ => hfree (map_eq_none_iff.mp hnone))
      fun jp hj hnone hr hv => ?_
    obtain ⟨htype, hst⟩ := hl.free jp hnone hr hv
    exact ⟨htype, fun ht => hstored jp hj hr ht (hst ht)⟩

end

theorem Abs.Unique.keep (hu : a.Unique)
    (h : ∀ ip, 0 < (a'.inode ip).ref → 0 < (a.inode ip).ref ∧ a'.inum ip = a.inum ip) :
    a'.Unique := by
  intro ip jp hi hj he
  obtain ⟨hi', hie⟩ := h ip hi
  obtain ⟨hj', hje⟩ := h jp hj
  exact hu ip jp hi' hj' (by rw [← hie, ← hje, he])

/-- An entry in use gets another number of references. -/
theorem Abs.Unique.setRef (hu : a.Unique) (hpos : 0 < (a.inode ip).ref) :
    (a.setEntry ip { a.inode ip with ref := k }).Unique := by
  refine hu.keep fun jp => ?_
  dsimp only [inum]
  exact update_one jp (fun _ => ⟨hpos, rfl⟩) fun jp _ hj => ⟨hj, rfl⟩

/-- `iget` makes an entry for an inode that has none. -/
theorem Abs.Gets.unique {i : Nat} {x : Entry} (hu : a.Unique) (hx : a.Gets i ip x) :
    (a.setEntry ip x).Unique := by
  by_cases h0 : (a.inode ip).ref = 0
  · have hnew : ∀ jp, 0 < (a.inode jp).ref → a.inum jp ≠ x.inum := by
      intro jp hpos
      rw [hx.inum]
      exact (hx.new h0).2.2 jp hpos
    intro jp kp
    dsimp only [Abs.inum]
    refine update_one jp ?_ fun jp _ => ?_
    · exact update_one kp (fun _ _ _ => rfl) fun kp _ _ hk he => absurd he.symm (hnew kp hk)
    · exact update_one kp (fun hj _ he => absurd he (hnew jp hj)) fun kp _ => hu jp kp
  · rw [hx.old (pos_of_ne_zero h0)]
    exact hu.setRef (pos_of_ne_zero h0)

/-! ## Groups of commands -/

/-- The invariant still holds after a command, for resources that the command
    may leave. -/
def Kept (sb : Superblock) (t : Prop) (p : Pid) (c : Cmd) (R : Pid → Res) (b : c.Ret) (a' : Abs) :
    Prop :=
  ∃ R', Holds sb t a' R' ∧ Post sb t c (R p) b (R' p) ∧ Others (spec sb t) Res.Idle p R R'

/-- What is to be shown for a command. -/
def StepKept (sb : Superblock) (t : Prop) (p : Pid) (R : Pid → Res) (a : Abs) (c : Cmd) (b : c.Ret)
    (a' : Abs) : Prop :=
  Pre sb t c (R p) → Abs.Step p c a b a' → Kept sb t p c R b a'

theorem Kept.same (hh : Holds sb t a R) (hpost : Post sb t c (R p) b (R p)) : Kept sb t p c R b a :=
  ⟨R, hh, hpost, .refl p R⟩

theorem Kept.update (hh : Holds sb t a' (update R p u))
    (hpost : Post sb t c (R p) b u) : Kept sb t p c R b a' :=
  ⟨_, hh, by rwa [update_self], .update p R u⟩

/-- The number of references to an inode changes. -/
theorem Holds.setRefs (hh : Holds sb t a R) (halive : (R p).alive = true) {x : Entry}
    (hbal : x.ref + (R p).refs ip = (a.inode ip).ref + k) (hu : (a.setEntry ip x).Unique)
    (hold : 0 < (a.inode ip).ref → x = { a.inode ip with ref := x.ref })
    (hnew : (a.inode ip).ref = 0 → x.valid = false) (hback : (R p).locks ip ≠ none → 0 < k) :
    Holds sb t (a.setEntry ip x) (update R p { R p with refs := update (R p).refs ip k }) := by
  refine ⟨hh.procs.keep halive halive rfl rfl rfl, hh.counts.keepFiles rfl ?_ rfl rfl rfl,
    hh.pipes.keep rfl rfl rfl rfl, hu,
    hh.locks.keep hh.counts rfl ?_ ?_ (fun _ _ _ => rfl) rfl ?_, hh.dirs⟩
  · intro jp
    dsimp only
    exact update_both jp hbal fun _ _ => rfl
  · intro jp
    dsimp only
    exact update_one jp (fun hpos => ⟨x.ref, hold hpos⟩) fun jp _ _ => ⟨_, rfl⟩
  · intro jp
    dsimp only
    exact update_one jp (fun h0 _ => hnew h0) fun jp _ h0 hpos => absurd h0 hpos.ne'
  · intro jp
    unfold Res.Backed
    dsimp only
    exact update_one jp (fun hl => .inl (hback hl)) fun jp _ => hh.locks.backed p jp

section

variable {x : Entry} {o : Option Hold} {last : Bool} {y : Hold} {f : Attr → Attr} {bare : Bool}
  {node : Nat → Option Node} {user : Bool} {src off n : Nat} {m : Attr} {type inum : Nat}
  {taken : Bool} {dst : Nat} (hh : Holds sb t a R) {cp : Copyin}
include hh

theorem Holds.addRef (halive : (R p).alive = true) (href : x.ref = (a.inode ip).ref + 1)
    (hu : (a.setEntry ip x).Unique)
    (hold : 0 < (a.inode ip).ref → x = { a.inode ip with ref := x.ref })
    (hnew : (a.inode ip).ref = 0 → x.valid = false) :
    Holds sb t (a.setEntry ip x) (update R p ((R p).addRef ip)) :=
  hh.setRefs halive (by omega) hu hold hnew fun _ => succ_pos _

theorem Holds.dropRef (halive : (R p).alive = true) (hpos : 0 < (R p).refs ip)
    (hback : (R p).locks ip ≠ none → 1 < (R p).refs ip) :
    Holds sb t (a.setEntry ip { a.inode ip with ref := (a.inode ip).ref - 1 })
      (update R p ((R p).dropRef ip)) := by
  have hpos' := hh.counts.ref_pos (.inl hpos)
  refine hh.setRefs halive ?_ (hh.unique.setRef hpos') (fun _ => rfl)
    (fun h0 => absurd h0 hpos'.ne') fun hl => ?_
  · show (a.inode ip).ref - 1 + _ = _
    omega
  · have := hback hl
    omega

/-- The process takes, changes or releases the lock of an inode. -/
theorem Holds.setLock (halive : (R p).alive = true) (hft : a'.ftable = a.ftable)
    (hpipe : a'.pipe = a.pipe) (hproc : a'.proc = a.proc) (hpos : 0 < (a.inode ip).ref)
    (hmine : a.lock ip = none ∨ a.lock ip = some p)
    (hnode : t → ∀ j, j ≠ a.inum ip → a'.node j = a.node j)
    (hinode : a'.inode = update a.inode ip x) (hinum : x.inum = a.inum ip)
    (href : x.ref = (a.inode ip).ref) (hlock : a'.lock = update a.lock ip (o.map fun _ => p))
    (hheld : ∀ h, o = some h → (R p).Backed ip ∧ Knows t a' ip h)
    (hfree : o = none → x.valid = true → x.attr.type ≠ 0 ∧ (t → Stored a' ip))
    (hdir : t → ∀ nd, a'.node (a.inum ip) = some nd → nd.attr.type = T_DIR → Named sb nd.data) :
    Holds sb t a' (update R p ((R p).setLock ip o)) := by
  refine ⟨?_, hh.counts.keepFiles hft ?_ rfl rfl rfl, hh.pipes.keep hpipe hft rfl rfl,
    hh.unique.keep ?_, hh.locks.setLock hh.counts hh.unique hpos hmine hnode hinode hlock hheld
    hfree, ?_⟩
  · rw [hproc]
    exact hh.procs.keep halive halive rfl rfl rfl
  · intro jp
    rw [hinode]
    exact update_one jp (congrArg (· + (R p).refs ip) href) fun _ _ => rfl
  · intro jp
    dsimp only [inum]
    rw [hinode]
    exact update_one jp (fun _ => ⟨hpos, hinum⟩) fun jp _ hj => ⟨hj, rfl⟩
  · intro ht i nd hi hd
    by_cases he : i = a.inum ip
    · rw [he] at hi
      exact hdir ht nd hi hd
    · rw [hnode ht i he] at hi
      exact hh.dirs ht i nd hi hd

/-- What the process knows of its own lock. -/
theorem Holds.mine (hl : (R p).locks ip = some h) :
    0 < (a.inode ip).ref ∧ a.lock ip = some p ∧ (R p).Backed ip ∧ Knows t a ip h := by
  have hne : (R p).locks ip ≠ none := fun hc => by rw [hl] at hc; cases hc
  exact ⟨hh.locks.ref_pos hh.counts hne, (hh.locks.lock ip p).mpr hne, hh.locks.backed p ip hne,
    hh.locks.held p ip h hl⟩

/-- An entry that `ilock` returns has a type. -/
theorem Holds.fills (hlock : a.lock ip = none) (hpos : 0 < (a.inode ip).ref) (hx : a.Fills ip x) :
    x.inum = a.inum ip ∧ x.ref = (a.inode ip).ref ∧ x.valid = true ∧ x.attr.type ≠ 0 := by
  unfold Abs.Fills at hx
  split at hx
  · next hv =>
    subst hx
    exact ⟨rfl, rfl, hv, (hh.locks.free ip hlock hpos hv).1⟩
  · exact hx

/-- It is stored on the disk. -/
theorem Holds.reads (ht : t) (hlock : a.lock ip = none) (hpos : 0 < (a.inode ip).ref)
    (hx : a.Reads ip x) : ∃ data, a.nodeOf ip = some ⟨x.attr, data⟩ := by
  unfold Abs.Reads at hx
  split at hx
  · next hv =>
    subst hx
    exact (hh.locks.free ip hlock hpos hv).2 ht
  · obtain ⟨nd, bare, hnd, rfl⟩ := hx
    exact ⟨nd.data, hnd⟩

theorem Holds.unlocked (hlock : a.lock ip = none) : (R p).locks ip = none := by
  by_contra hc
  have := (hh.locks.lock ip p).mpr hc
  rw [hlock] at this
  cases this

/-- A directory stays one. -/
theorem Holds.named_data (ht : t) (hok : a.Ok sb) (hheld : a.Held ip)
    (hd : (a.inode ip).attr.type = T_DIR) : Named sb (a.data ip) := by
  obtain ⟨nd, hnd, htype⟩ := hok.type ip hheld (by rw [hd]; decide)
  unfold data
  rw [hnd]
  exact hh.dirs ht _ nd hnd (htype.trans hd)

/-! ## Commands on inodes -/

section

variable (halive : (R p).alive = true)
include halive

theorem ilock_kept (hpre : Pre sb t (.ilock ip) (R p)) (hframe : Abs.Frame p (.ilock ip) a () a')
    (hstep : t → Abs.Step p (.ilock ip) a () a') : Kept sb t p (.ilock ip) R () a' := by
  obtain ⟨hpos, hlock, x, hx, rfl⟩ := hframe
  obtain ⟨hinum, href, hv, htype⟩ := hh.fills hlock hpos hx
  have hself : ((a.setLock ip (some p)).setEntry ip x).inode ip = x := update_self ..
  have hstored : t → Stored ((a.setLock ip (some p)).setEntry ip x) ip := by
    intro ht
    obtain ⟨-, -, y, hy, he⟩ := hstep ht
    have hxy : x = y := by
      have := congrArg (fun b : Abs => b.inode ip) he
      dsimp only at this
      rwa [update_self, update_self] at this
    subst hxy
    obtain ⟨data, hdata⟩ := hh.reads ht hlock hpos hy
    refine ⟨data, ?_⟩
    rw [nodeOf, inum, hself, hinum]
    exact hdata
  refine .update (hh.setLock halive rfl rfl rfl hpos (.inl hlock) (fun _ _ _ => rfl) rfl hinum href
    (o := some (.of x.attr)) rfl ?_ (fun hc => by cases hc) fun ht nd hnd hd =>
      hh.dirs ht _ nd hnd hd) ?_
  · intro h hh'
    cases hh'
    refine ⟨hpre, ?_, fun _ => ?_, (fun _ hc => by cases hc), fun ht _ _ _ => hstored ht⟩
    · rw [hself]
      exact hv
    · rw [hself]
      rfl
  · exact ⟨hh.unlocked hlock, x.attr, htype, rfl⟩

theorem iunlock_kept : StepKept sb t p R a (.iunlock ip) () a' := by
  intro hpre hstep
  obtain ⟨h, hl, hv, hc, h0⟩ := hpre
  obtain ⟨hpos, hlock, -, hk⟩ := hh.mine hl
  obtain ⟨-, rfl⟩ := hstep
  refine .update (hh.setLock halive rfl rfl rfl hpos (.inr hlock) (fun _ _ _ => rfl)
    (update_eq_self ip _).symm rfl rfl (o := none) rfl (fun h hc => by cases hc)
    (fun _ _ => ⟨?_, fun ht => hk.clean ht hv hc h0⟩) fun ht nd hnd hd =>
      hh.dirs ht _ nd hnd hd) rfl
  rw [hk.attr hv]
  exact h0

theorem releasesleep_kept : StepKept sb t p R a (.releasesleep ip) () a' := by
  intro hpre hstep
  obtain ⟨h, hl, hv⟩ := hpre
  obtain ⟨hpos, hlock, -, hk⟩ := hh.mine hl
  obtain rfl := hstep
  refine .update (hh.setLock halive rfl rfl rfl hpos (.inr hlock) (fun _ _ _ => rfl)
    (update_eq_self ip _).symm rfl rfl (o := none) rfl (fun h hc => by cases hc)
    (fun _ hc => ?_) fun ht nd hnd hd => hh.dirs ht _ nd hnd hd) rfl
  rw [hk.valid, hv] at hc
  cases hc

theorem iputLast_kept : StepKept sb t p R a (.iputLast ip) last a' := by
  intro hpre hstep
  rw [Abs.Step] at hstep
  split at hstep
  · next hlast =>
    obtain ⟨rfl, hlock, rfl⟩ := hstep
    have hpos := hh.counts.ref_pos (.inl hpre.1)
    obtain ⟨htype, hst⟩ := hh.locks.free ip hlock hpos hlast.2.1
    refine .update (hh.setLock halive rfl rfl rfl hpos (.inl hlock) (fun _ _ _ => rfl)
      (update_eq_self ip _).symm rfl rfl (o := some (.of (a.inode ip).attr)) rfl ?_
      (fun hc => by cases hc) fun ht nd hnd hd => hh.dirs ht _ nd hnd hd) ?_
    · intro h hh'
      cases hh'
      exact ⟨.inl hpre.1, hlast.2.1, fun _ => rfl, (fun _ hc => by cases hc),
        fun ht _ _ _ => hst ht⟩
    · exact ⟨hh.unlocked hlock, _, htype, rfl⟩
  · obtain ⟨rfl, rfl⟩ := hstep
    exact .update (hh.dropRef halive hpre.1 hpre.2) rfl

/-- The holder of a lock changes the entry in memory. -/
theorem Holds.setEntry (hl : (R p).locks ip = some h) (hinum : x.inum = a.inum ip)
    (href : x.ref = (a.inode ip).ref) (hk : Knows t (a.setEntry ip x) ip y) :
    Holds sb t (a.setEntry ip x) (update R p ((R p).setLock ip (some y))) := by
  obtain ⟨hpos, hlock, hback, -⟩ := hh.mine hl
  refine hh.setLock halive rfl rfl rfl hpos (.inr hlock) (fun _ _ _ => rfl) rfl hinum href
    (o := some y) ?_ ?_ (fun hc => by cases hc) fun ht nd hnd hd => hh.dirs ht _ nd hnd hd
  · exact (update_eq_self_iff.mpr hlock.symm).symm
  · intro h1 hh'
    cases hh'
    exact ⟨hback, hk⟩

theorem invalidate_kept : StepKept sb t p R a (.invalidate ip) () a' := by
  intro hpre hstep
  obtain ⟨h, hl⟩ := ne_none_iff_exists'.mp hpre
  obtain rfl := hstep
  have hk := (hh.mine hl).2.2.2
  refine .update (hh.setEntry halive hl rfl rfl (y := { h with valid := false }) ?_) ?_
  · refine ⟨?_, (fun hc => by cases hc), ?_, (fun _ hc => by cases hc)⟩
    · dsimp only
      rw [update_self]
    · dsimp only
      rw [update_self]
      exact hk.bare
  · exact of_some hl rfl

theorem modify_kept : StepKept sb t p R a (.modify ip f) () a' := by
  intro hpre hstep
  obtain ⟨h, hl, hv, -, -⟩ := hpre
  obtain rfl := hstep
  have hk := (hh.mine hl).2.2.2
  refine .update (hh.setEntry halive hl rfl rfl
    (y := { h with attr := f h.attr, clean := false }) ?_) ?_
  · refine ⟨?_, fun _ => ?_, ?_, fun _ _ hc => by cases hc⟩
    · dsimp only
      rw [update_self]
      exact hk.valid
    · dsimp only
      rw [update_self, hk.attr hv]
    · dsimp only
      rw [update_self]
      exact hk.bare
  · exact of_some hl rfl

/-- The holder of a lock uses the contents of the inode. -/
theorem Holds.setNode (hl : (R p).locks ip = some h) (hvalid : h.valid = y.valid)
    (hattr : y.valid = true → h.attr = y.attr) (hother : t → ∀ j, j ≠ a.inum ip → node j = a.node j)
    (hbare : t → y.bare = true → bare = true)
    (hnd : t → y.valid = true → y.clean = true → y.attr.type ≠ 0 →
      ∃ data, node (a.inum ip) = some ⟨y.attr, data⟩)
    (hdir : t → ∀ nd, node (a.inum ip) = some nd → nd.attr.type = T_DIR → Named sb nd.data) :
    Holds sb t { a with node := node, inode := update a.inode ip { a.inode ip with bare := bare } }
      (update R p ((R p).setLock ip (some y))) := by
  obtain ⟨hpos, hlock, hback, hk⟩ := hh.mine hl
  refine hh.setLock halive rfl rfl rfl hpos (.inr hlock) hother rfl rfl rfl (o := some y) ?_ ?_
    (fun hc => by cases hc) hdir
  · exact (update_eq_self_iff.mpr hlock.symm).symm
  · intro h1 hh'
    cases hh'
    have hv : (a.inode ip).valid = y.valid := hk.valid.trans hvalid
    have ha : y.valid = true → (a.inode ip).attr = y.attr := fun hv' =>
      (hk.attr (hvalid.trans hv')).trans (hattr hv')
    refine ⟨hback, ?_, ?_, ?_, fun ht hv' hc h0 => ?_⟩
    · dsimp only
      rw [update_self]
      exact hv
    · dsimp only
      rw [update_self]
      exact ha
    · dsimp only
      rw [update_self]
      exact hbare
    · obtain ⟨data, hd⟩ := hnd ht hv' hc h0
      refine ⟨data, ?_⟩
      dsimp only [nodeOf, inum]
      rw [update_self, ha hv']
      exact hd

end

theorem iupdate_kept (hok : t → a.Ok sb) (halive : (R p).alive = true)
    (hpre : Pre sb t (.iupdate ip) (R p)) (hframe : Abs.Frame p (.iupdate ip) a () a')
    (hstep : t → Abs.Step p (.iupdate ip) a () a') : Kept sb t p (.iupdate ip) R () a' := by
  obtain ⟨h, hl, hv⟩ := hpre
  obtain ⟨node, bare, rfl⟩ := hframe
  have hk := (hh.mine hl).2.2.2
  obtain ⟨hheld, hattr⟩ := hh.held hl hv
  have hnode : t → node = update a.node (a.inum ip)
      (if h.attr.type = 0 then none else some ⟨h.attr, a.data ip⟩) := by
    intro ht
    rw [← hattr]
    exact congrArg Abs.node (hstep ht)
  have hbare : t → bare = (a.inode ip).bare := by
    intro ht
    have := congrArg (fun b : Abs => (b.inode ip).bare) (hstep ht)
    dsimp only at this
    rwa [update_self] at this
  refine .update (hh.setNode halive hl (y := { h with clean := true }) rfl (fun _ => rfl) ?_ ?_ ?_
    ?_) ?_
  · intro ht j hj
    rw [hnode ht, update_of_ne hj]
  · intro ht hb
    rw [hbare ht]
    exact hk.bare ht hb
  · intro ht _ _ h0
    rw [hnode ht, update_self, if_neg h0]
    exact ⟨_, rfl⟩
  · intro ht nd hnd hd
    rw [hnode ht, update_self] at hnd
    split at hnd
    · cases hnd
    · cases hnd
      exact hh.named_data ht (hok ht) hheld (by rw [hattr]; exact hd)
  · exact of_some hl rfl

theorem itrunc_kept (halive : (R p).alive = true) (hpre : Pre sb t (.itrunc ip) (R p))
    (hframe : Abs.Frame p (.itrunc ip) a () a') (hstep : t → Abs.Step p (.itrunc ip) a () a') :
    Kept sb t p (.itrunc ip) R () a' := by
  obtain ⟨h, hl, hv, -⟩ := hpre
  obtain ⟨node, bare, rfl⟩ := hframe
  obtain ⟨-, hattr⟩ := hh.held hl hv
  have hnode : t → node = update a.node (a.inum ip) (some ⟨h.attr, []⟩) := by
    intro ht
    rw [← hattr]
    exact congrArg Abs.node (hstep ht)
  have hbare : t → bare = true := by
    intro ht
    have := congrArg (fun b : Abs => (b.inode ip).bare) (hstep ht)
    dsimp only at this
    rwa [update_self, update_self] at this
  refine .update (hh.setNode halive hl (y := { h with clean := true, bare := true }) rfl
    (fun _ => rfl) ?_ (fun ht _ => hbare ht) ?_ ?_) ?_
  · intro ht j hj
    rw [hnode ht, update_of_ne hj]
  · intro ht _ _ _
    rw [hnode ht, update_self]
    exact ⟨_, rfl⟩
  · intro ht nd hnd _
    rw [hnode ht, update_self] at hnd
    cases hnd
    exact .nil sb
  · exact of_some hl rfl

/-- What `writei` leaves of an inode. -/
theorem Holds.writes {b : Int} (ht : t) (hok : a.Ok sb) (hl : (R p).locks ip = some (.of m))
    (hm : m.type ≠ 0)
    (hwrite : user = false → n = Dirent.SIZE → m.type = T_DIR → WritesEntry sb cp src off n)
    (hdirs : NoDirWrite a (.writei user cp ip src off n))
    (hstep : Abs.Step p (.writei user cp ip src off n) a b a') :
    ∃ data, a'.node = update a.node (a.inum ip) (some ⟨m, data⟩) ∧
      (m.type = T_DIR → Named sb data) := by
  obtain ⟨hheld, hattr⟩ := hh.held hl rfl
  rw [Abs.Step, Abs.Writes] at hstep
  split at hstep
  · -- nothing is written
    obtain ⟨-, rfl⟩ := hstep
    obtain ⟨data, hdata⟩ := (hh.mine hl).2.2.2.clean ht rfl rfl hm
    rw [hattr] at hdata
    refine ⟨data, (update_eq_self_iff.mpr hdata.symm).symm, fun hd => ?_⟩
    exact hh.dirs ht _ _ hdata hd
  · next hin =>
    obtain ⟨data, bare, rfl, hfull⟩ := hstep
    refine ⟨data, by rw [show m = _ from hattr.symm], fun hd => ?_⟩
    obtain ⟨rfl, hn⟩ := hdirs (by rw [hattr]; exact hd)
    obtain ⟨hoff, hn, hsrc, bytes, hdel, hi⟩ := hwrite rfl hn hd
    rw [(hfull bytes hsrc hdel).2]
    refine (hh.named_data ht hok hheld (by rw [hattr]; exact hd)).overwrite (by omega) ?_ hoff hi
    rw [List.length_map, List.length_range, hn]

theorem writei_kept {b : Int} (hok : t → a.Ok sb) (halive : (R p).alive = true)
    (hpre : Pre sb t (.writei user cp ip src off n) (R p))
    (hdirs : t → NoDirWrite a (.writei user cp ip src off n))
    (hframe : Abs.Frame p (.writei user cp ip src off n) a b a')
    (hstep : t → Abs.Step p (.writei user cp ip src off n) a b a') :
    Kept sb t p (.writei user cp ip src off n) R b a' := by
  obtain ⟨-, m, hl, hm, hwrite⟩ := hpre
  obtain ⟨node, bare, rfl⟩ := hframe
  have hnode : t → ∃ data, node = update a.node (a.inum ip) (some ⟨m, data⟩) ∧
      (m.type = T_DIR → Named sb data) :=
    fun ht => hh.writes ht (hok ht) hl hm (hwrite ht) (hdirs ht) (hstep ht)
  refine .update (hh.setNode halive hl (y := .of m) rfl (fun _ => rfl) ?_ (fun _ hc => by cases hc)
    ?_ ?_) ?_
  · intro ht j hj
    obtain ⟨data, rfl, -⟩ := hnode ht
    exact update_of_ne hj _ _
  · intro ht _ _ _
    obtain ⟨data, rfl, -⟩ := hnode ht
    exact ⟨data, update_self ..⟩
  · intro ht nd hnd hd
    obtain ⟨data, rfl, hnamed⟩ := hnode ht
    rw [update_self] at hnd
    cases hnd
    exact hnamed hd
  · show (R p).setLock ip (some (.of m)) = R p
    unfold Res.setLock
    rw [update_eq_self_iff.mpr hl.symm]

theorem ialloc_kept (halive : (R p).alive = true)
    (hframe : Abs.Frame p (.ialloc type inum) a taken a')
    (hstep : t → Abs.Step p (.ialloc type inum) a taken a') :
    Kept sb t p (.ialloc type inum) R taken a' := by
  obtain ⟨node, rfl⟩ := hframe
  have hnode : t → node = a.node ∨
      a.node inum = none ∧ node = update a.node inum (some ⟨⟨type, 0, 0, 0⟩, []⟩) := by
    intro ht
    have := hstep ht
    rw [Abs.Step] at this
    split at this
    · next hnone => exact .inr ⟨hnone, congrArg Abs.node this.2⟩
    · exact .inl (congrArg Abs.node this.2)
  refine .update (u := R p) ⟨hh.procs.keep halive halive rfl rfl rfl,
    hh.counts.keepFiles rfl (fun _ => rfl) rfl rfl rfl, hh.pipes.keep rfl rfl rfl rfl, hh.unique,
    hh.locks.keep hh.counts rfl (fun ip _ => ⟨_, rfl⟩) ?_ ?_ rfl (hh.locks.backed p), ?_⟩ rfl
  · intro ip h0 hpos
    exact absurd h0 (ne_of_gt hpos)
  · intro ht i hi
    rcases hnode ht with rfl | ⟨hnone, rfl⟩
    · rfl
    · exact update_of_ne (fun he => hi (by rw [he]; exact hnone)) _ _
  · intro ht i nd hi hd
    rcases hnode ht with rfl | ⟨-, rfl⟩
    · exact hh.dirs ht i nd hi hd
    · dsimp only at hi
      by_cases he : i = inum
      · rw [he, update_self] at hi
        cases hi
        exact .nil sb
      · rw [update_of_ne he] at hi
        exact hh.dirs ht i nd hi hd

theorem readi_kept {cp : Nat → Nat → Bool} {b : Int × Bytes} (hok : t → a.Ok sb)
    (halive : (R p).alive = true) (hpre : Pre sb t (.readi cp ip dst off n) (R p))
    (hframe : Abs.Frame p (.readi cp ip dst off n) a b a')
    (hstep : t → Abs.Step p (.readi cp ip dst off n) a b a') :
    Kept sb t p (.readi cp ip dst off n) R b a' := by
  obtain ⟨⟨h, hl, hv⟩, -⟩ := hpre
  obtain ⟨node, bare, rfl⟩ := hframe
  obtain ⟨hheld, hattr⟩ := hh.held hl hv
  have hk := (hh.mine hl).2.2.2
  have hnode : t → node = a.node := fun ht => congrArg Abs.node (hstep ht).1
  have hbare : t → bare = (a.inode ip).bare := by
    intro ht
    have := congrArg (fun b : Abs => (b.inode ip).bare) (hstep ht).1
    dsimp only at this
    rwa [update_self] at this
  have hsame : (R p).setLock ip (some h) = R p := by
    unfold Res.setLock
    rw [update_eq_self_iff.mpr hl.symm]
  refine .update (hh.setNode halive hl (y := h) rfl (fun _ => rfl) ?_ ?_ ?_ ?_) ⟨hsame, ?_⟩
  · intro ht j _
    rw [hnode ht]
  · intro ht hb
    rw [hbare ht]
    exact hk.bare ht hb
  · intro ht hv' hc h0
    obtain ⟨data, hdata⟩ := hk.clean ht hv' hc h0
    rw [hattr] at hdata
    rw [hnode ht]
    exact ⟨data, hdata⟩
  · intro ht nd hnd hd
    rw [hnode ht] at hnd
    exact hh.dirs ht _ nd hnd hd
  · intro ht h1 hl' hd hcp hdvd hsz hr
    rw [hl] at hl'
    cases hl'
    have hnamed := hh.named_data ht (hok ht) hheld (by rw [hattr]; exact hd)
    have hpos : 0 < Dirent.SIZE := by decide
    rw [(hstep ht).2 hcp, hsz] at hr ⊢
    unfold Abs.readAt at hr ⊢
    split at hr
    · exact absurd hr (by decide)
    · next hin =>
      rw [if_neg hin]
      exact hnamed off hdvd (by omega)

end

/-! ## Commands on files -/

/-- A change of the file table that leaves the inodes alone. -/
theorem Locks.keepInodes (hl : Locks t a R) (hc : Counts a R) (hlock : a'.lock = a.lock)
    (hinode : a'.inode = a.inode) (hnode : a'.node = a.node) (hlocks : u.locks = (R p).locks)
    (hback : ∀ ip, u.locks ip ≠ none → u.Backed ip) : Locks t a' (update R p u) := by
  refine hl.keep hc hlock (fun ip _ => ⟨(a.inode ip).ref, by rw [hinode]⟩) ?_
    (fun _ i _ => by rw [hnode]) hlocks hback
  intro ip h0 hpos
  rw [hinode] at hpos
  omega

theorem filesOn_setFile (h : x.inode = some ip ↔ (F f).inode = some ip) :
    filesOn (update F f x) ip = filesOn F ip :=
  count_update_iff h

theorem filesOn_open (hold : (F f).inode ≠ some ip)
    (hnew : x.inode = some ip) : filesOn (update F f x) ip = filesOn F ip + 1 :=
  count_update_true hold hnew

theorem filesAt_setFile (h : x.pipeEnd = some e ↔ (F f).pipeEnd = some e) :
    filesAt (update F f x) e = filesAt F e :=
  count_update_iff h

/-- A file that is not set up belongs to one process. -/
theorem Counts.fresh_only (hc : Counts a R) (hp : 0 < (R p).files f) (q : Pid) (hne : q ≠ p) :
    (R q).fresh f = false := by
  rw [← Bool.not_eq_true]
  intro hq
  obtain ⟨-, href, hfiles⟩ := hc.fresh q f hq
  have : (R q).files f + (R p).files f ≤ filesTo R f :=
    add_le_total (f := R) (g := fun r : Res => r.files f) hne
  have := hc.fref f
  omega

theorem Res.fresh_dropFile (h : (r.dropFile f).fresh g = true) : g ≠ f ∧ r.fresh g = true :=
  update_other (· = true) h Bool.false_ne_true

theorem Res.seen_dropFile (h : (r.dropFile f).seen g = some ip) : g ≠ f ∧ r.seen g = some ip :=
  update_other (· = some ip) h fun hc => by cases hc

theorem Res.refs_gain : (r.gain x).refs ip = r.refs ip + if x.inode = some ip then 1 else 0 := by
  have hadd : (r.addRef x.ip).refs ip = r.refs ip + if some x.ip = some ip then 1 else 0 := by
    by_cases hj : ip = x.ip
    · rw [hj, if_pos rfl, Res.refs_addRef_self]
    · rw [if_neg fun hc => hj (some.inj hc).symm, Res.refs_addRef_of_ne hj]
      rfl
  unfold Res.gain File.inode
  cases x.type with
  | FD_INODE => exact hadd
  | FD_DEVICE => exact hadd
  | FD_PIPE => rfl
  | FD_NONE => rfl

theorem Res.ends_gain : (r.gain x).ends e = r.ends e + if x.pipeEnd = some e then 1 else 0 := by
  unfold Res.gain File.pipeEnd
  cases x.type with
  | FD_INODE => rfl
  | FD_DEVICE => rfl
  | FD_PIPE =>
    show update r.ends (x.pipe, x.writable) _ e = _
    by_cases hj : e = (x.pipe, x.writable)
    · rw [hj, if_pos rfl, update_self]
    · rw [if_neg fun hc => hj (some.inj hc).symm, update_of_ne hj]
      rfl
  | FD_NONE => rfl

/-- A reference to an inode or an end of a pipe changes nothing else. -/
theorem Res.gain_eq : r.gain x = { r with refs := (r.gain x).refs, ends := (r.gain x).ends } := by
  unfold Res.gain
  cases x.type <;> rfl

/-- A file that is not set up is on nothing. -/
theorem Counts.fresh_bare (hc : Counts a R) (hq : (R q).fresh f = true) :
    (a.ftable f).inode = none ∧ (a.ftable f).pipeEnd = none := by
  unfold File.inode File.pipeEnd
  rw [(hc.fresh q f hq).1]
  exact ⟨rfl, rfl⟩

/-- No process has looked at it. -/
theorem Counts.fresh_unseen (hc : Counts a R) (hq : (R q).fresh f = true) (q' : Pid)
    (jp : Fin NINODE) : (R q').seen f ≠ some jp := by
  intro hs
  have := (hc.seen q' f jp hs).2
  rw [(hc.fresh_bare hq).1] at this
  cases this

/-- The references to the ends of the other pipes are as they were. -/
theorem Pipes.setPipe (hp : Pipes a R) {x : Option PipeEnds}
    (hother : ∀ e : Nat × Bool, e.1 ≠ pi → u.ends e = (R p).ends e)
    (hcount : ∀ w, openEnds x w + (R p).ends (pi, w) = openEnds (a.pipe pi) w + u.ends (pi, w))
    (hd : ∀ pi', u.doomed = some pi' →
      pi' ≠ pi ∧ (R p).doomed = some pi' ∨ pi' = pi ∧ x = some ⟨false, false⟩)
    (hd' : ∀ pi', pi' ≠ pi → (R p).doomed = some pi' → u.doomed = some pi')
    (hx : x = some ⟨false, false⟩ → u.doomed = some pi)
    (hfree : ∀ q, q ≠ p → (R q).doomed ≠ some pi) : Pipes (a.setPipe pi x) (update R p u) := by
  refine ⟨fun pi' w => ?_, fun q pi' hq => ?_, fun pi' hc => ?_, fun q q' pi' hq hq' => ?_⟩
  · have h1 := hp.count pi' w
    have h2 := endsTo_update (pi', w) (R := R) (p := p) (u := u)
    dsimp only
    by_cases he : pi' = pi
    · rw [he, update_self]
      rw [he] at h1 h2
      have h3 := hcount w
      omega
    · rw [update_of_ne he]
      have h3 := hother (pi', w) he
      omega
  · dsimp only
    revert hq
    refine update_one q (fun hq => ?_) fun q hqp hq => ?_
    · rcases hd pi' hq with ⟨hne, hold⟩ | ⟨he, hx'⟩
      · rw [update_of_ne hne]
        exact hp.doomed p pi' hold
      · rw [he, update_self, hx']
    · have hne : pi' ≠ pi := fun he => hfree q hqp (by rw [← he]; exact hq)
      rw [update_of_ne hne]
      exact hp.doomed q pi' hq
  · dsimp only at hc
    by_cases he : pi' = pi
    · rw [he, update_self] at hc
      exact ⟨p, by rw [update_self, he]; exact hx hc⟩
    · rw [update_of_ne he] at hc
      obtain ⟨q, hq⟩ := hp.closed pi' hc
      refine ⟨q, ?_⟩
      revert hq
      exact update_one q (hd' pi' he) fun _ _ hq => hq
  · -- only `p` can have to free `pi`
    have hback : ∀ q, (update R p u q).doomed = some pi' → pi' ≠ pi → (R q).doomed = some pi' := by
      intro q
      refine update_one q (fun hq hne => ?_) fun _ _ hq _ => hq
      exact ((hd pi' hq).resolve_right fun hc => hne hc.1).2
    have hself : ∀ q, (update R p u q).doomed = some pi' → pi' = pi → q = p := by
      intro q
      refine update_one q (fun _ _ => rfl) fun q hqp hq he => ?_
      exact absurd (he ▸ hq) (hfree q hqp)
    by_cases he : pi' = pi
    · rw [hself q hq he, hself q' hq' he]
    · exact hp.one q q' pi' (hback q hq he) (hback q' hq' he)

theorem Res.addEnds :
    ((r.addEnd (pi, false)).addEnd (pi, true)).ends e = r.ends e + if e.1 = pi then 1 else 0 := by
  obtain ⟨pi', w⟩ := e
  show update (update r.ends (pi, false) _) (pi, true) _ (pi', w) = _
  by_cases he : pi' = pi
  · subst he
    cases w with
    | true =>
      rw [update_self, if_pos rfl]
      show update r.ends (pi', false) _ (pi', true) + 1 = _
      rw [update_of_ne (fun hc => by cases hc)]
    | false =>
      rw [update_of_ne (fun hc => by cases hc), update_self, if_pos rfl]
  · have hne : ∀ v, (pi', w) ≠ (pi, v) := fun v hc => he (congrArg Prod.fst hc)
    rw [update_of_ne (hne _), update_of_ne (hne _), if_neg he]
    rfl

/-- Nobody's child is alive. -/
theorem Procs.child_dead (hp : Procs proc R) (hc : (R q).child = some ch) :
    (R ch.np).alive = false := by
  by_contra ha
  rw [Bool.not_eq_false] at ha
  have h1 := hp.own ch.np ha
  rw [hp.child q ch hc] at h1
  cases h1

/-- A slot that is neither in use nor set up. -/
theorem Procs.unowned (hp : Procs proc R) (h1 : (proc np).state ≠ .ALIVE)
    (h2 : (proc np).state ≠ .EMBRYO) : Spare R np := by
  refine ⟨(Bool.not_eq_true _).mp fun ha => h1 ?_, fun q ch hc he => h2 ?_⟩
  · rw [hp.own np ha]
  · rw [← he, hp.child q ch hc]

/-- The reference counts after references have moved between processes. -/
theorem Counts.move (hc : Counts a R) (hft : a'.ftable = a.ftable) (hinode : a'.inode = a.inode)
    (hr : ∀ ip, refsTo R' ip = refsTo R ip) (hf : ∀ f, filesTo R' f = filesTo R f)
    (hfresh : ∀ q f, (R' q).fresh f = true → (R q).fresh f = true ∧ (R' q).files = (R q).files)
    (hseen : ∀ q f ip, (R' q).seen f = some ip →
      (R q).seen f = some ip ∧ (R' q).files = (R q).files) : Counts a' R' := by
  refine ⟨fun ip => ?_, fun f => ?_, fun f => ?_, fun f => ?_, fun q f hq => ?_,
    fun q f ip hq => ?_⟩
  · rw [hinode, hft, hr]
    exact hc.iref ip
  · rw [hft, hf]
    exact hc.fref f
  · rw [hft]
    exact hc.closed f
  · rw [hft]
    exact hc.off f
  · obtain ⟨hold, hfiles⟩ := hfresh q f hq
    rw [hft, hfiles]
    exact hc.fresh q f hold
  · obtain ⟨hold, hfiles⟩ := hseen q f ip hq
    rw [hft, hfiles]
    exact hc.seen q f ip hold

/-- What a process holds of inodes and files stays. -/
theorem Holds.setProcs (hh : Holds sb t a R) {child : Option Child}
    (hp : Procs proc' (update R p { R p with cwd := cwd, ofile := ofile, child := child })) :
    Holds sb t { a with proc := proc' }
      (update R p { R p with cwd := cwd, ofile := ofile, child := child }) :=
  ⟨hp, hh.counts.keepFiles rfl (fun _ => rfl) rfl rfl rfl, hh.pipes.keep rfl rfl rfl rfl, hh.unique,
    hh.locks.keepInodes hh.counts rfl rfl rfl rfl (hh.locks.backed p), hh.dirs⟩

section

variable {x : File} {b : Option (Fin NFILE)} {n : Nat} {refs : Fin NINODE → Nat}
  {files : Fin NFILE → Nat} {seen : Fin NFILE → Option (Fin NINODE)} {fresh : Fin NFILE → Bool}
  {ends : Nat × Bool → Nat} (hh : Holds sb t a R) (halive : (R p).alive = true)
include hh halive

/-- One file changes, and what the process holds with it. -/
theorem Holds.setFile
    (hi : ∀ ip, filesOn a.ftable ip + (R p).refs ip = filesOn (update a.ftable f x) ip + refs ip)
    (he : ∀ e, filesAt (update a.ftable f x) e + ends e = filesAt a.ftable e + (R p).ends e)
    (hbal : x.ref + (R p).files f = (a.ftable f).ref + files f)
    (hfiles : ∀ g, g ≠ f → files g = (R p).files g) (hclosed : x.ref = 0 → x.type = .FD_NONE)
    (hoff : x.off < 2 ^ 32)
    (hfresh : ∀ g, fresh g = true →
      g ≠ f ∧ (R p).fresh g = true ∨ g = f ∧ x.type = .FD_NONE ∧ x.ref = 1 ∧ files f = 1)
    (hseen : ∀ g ip, seen g = some ip →
      g ≠ f ∧ (R p).seen g = some ip ∨ g = f ∧ 0 < files f ∧ x.inode = some ip)
    (hothers : ∀ q, q ≠ p → (R q).fresh f = false)
    (hothers' : ∀ q, q ≠ p → ∀ ip, (R q).seen f = some ip → x.inode = some ip)
    (hback : ∀ ip, (R p).locks ip ≠ none → 0 < refs ip ∨ ∃ g, seen g = some ip) :
    Holds sb t (a.setFile f x) (update R p
        { R p with refs := refs, files := files, seen := seen, fresh := fresh, ends := ends }) := by
  refine ⟨hh.procs.keep halive halive rfl rfl rfl, hh.counts.change ?_ ?_ ?_ ?_ ?_ ?_ ?_ ?_,
    hh.pipes.change rfl he rfl, hh.unique, hh.locks.keepInodes hh.counts rfl rfl rfl rfl hback,
    hh.dirs⟩
  · exact fun ip => congrArg _ (hi ip)
  · intro g
    dsimp only
    refine update_one g hbal fun g hg => ?_
    rw [hfiles g hg]
  · intro g
    dsimp only
    exact update_one g hclosed fun g _ => hh.counts.closed g
  · intro g
    dsimp only
    exact update_one g hoff fun g _ => hh.counts.off g
  · intro g hg
    dsimp only
    rcases hfresh g hg with ⟨hgf, hold⟩ | ⟨rfl, hnew⟩
    · rw [update_of_ne hgf, hfiles g hgf]
      exact hh.counts.fresh p g hold
    · rwa [update_self]
  · intro g ip hg
    dsimp only
    rcases hseen g ip hg with ⟨hgf, hold⟩ | ⟨rfl, hnew⟩
    · rw [update_of_ne hgf, hfiles g hgf]
      exact hh.counts.seen p g ip hold
    · rwa [update_self]
  · refine fun q hq g hg => update_of_ne (fun he => ?_) _ _
    rw [he, hothers q hq] at hg
    cases hg
  · intro q hq g ip
    dsimp only
    exact update_one g (hothers' q hq ip) fun g _ hg => (hh.counts.seen q g ip hg).2

/-- The same for a file that stays on its inode, if it is on one. -/
theorem Holds.recountFile (files : Fin NFILE → Nat) (hin : x.inode = (a.ftable f).inode)
    (hpe : x.pipeEnd = (a.ftable f).pipeEnd)
    (hbal : x.ref + (R p).files f = (a.ftable f).ref + files f)
    (hfiles : ∀ g, g ≠ f → files g = (R p).files g) (hpos : x.ref ≠ 0) (hoff : x.off < 2 ^ 32)
    (hfresh : ∀ g, fresh g = true →
      g ≠ f ∧ (R p).fresh g = true ∨ g = f ∧ x.type = .FD_NONE ∧ x.ref = 1 ∧ files f = 1)
    (hseen : ∀ g ip, seen g = some ip → (R p).seen g = some ip ∧ (g = f → 0 < files f))
    (hothers : ∀ q, q ≠ p → (R q).fresh f = false)
    (hback : ∀ ip, (R p).locks ip ≠ none → 0 < (R p).refs ip ∨ ∃ g, seen g = some ip) :
    Holds sb t (a.setFile f x)
      (update R p { R p with files := files, seen := seen, fresh := fresh }) := by
  refine hh.setFile halive ?_ ?_ hbal hfiles (fun h0 => absurd h0 hpos) hoff hfresh ?_ hothers
    ?_ hback
  · intro ip
    rw [filesOn_setFile (by rw [hin])]
  · intro e
    rw [filesAt_setFile (by rw [hpe])]
  · intro g ip hg
    obtain ⟨hold, hself⟩ := hseen g ip hg
    by_cases he : g = f
    · right
      subst he
      exact ⟨rfl, hself rfl, hin.trans (hh.counts.seen p g ip hold).2⟩
    · exact .inl ⟨he, hold⟩
  · exact fun q _ ip hg => hin.trans (hh.counts.seen q f ip hg).2

theorem filealloc_kept (hstep : Abs.Step p .filealloc a b a') : Kept sb t p .filealloc R b a' := by
  cases b with
  | none =>
    obtain rfl := hstep
    exact .same hh rfl
  | some f =>
    obtain ⟨h0, rfl⟩ := hstep
    have hnone : ∀ q, (R q).files f = 0 := by
      intro q
      have := files_le R f q
      have := hh.counts.fref f
      omega
    have hone : ((R p).addFile f).files f = 1 := by
      show update (R p).files f _ f = 1
      rw [update_self, hnone p]
    refine .update (hh.recountFile halive ((R p).addFile f).files
      rfl rfl ?_ ?_ one_ne_zero (hh.counts.off f) ?_ ?_ ?_
      (hh.locks.backed p)) ⟨hnone p, rfl⟩
    · rw [hone, hnone p, h0]
    · exact fun g hg => update_of_ne hg _ _
    · intro g hg
      rcases update_cases (· = true) hg with ⟨he, -⟩ | hold
      · exact .inr ⟨he, hh.counts.closed f h0, rfl, hone⟩
      · exact .inl hold
    · exact fun g ip hg => ⟨hg, fun _ => by rw [hone]; exact one_pos⟩
    · intro q _
      rw [← Bool.not_eq_true]
      intro hq
      have := (hh.counts.fresh q f hq).2.1
      omega

theorem file_kept : StepKept sb t p R a (.file f) x a' := by
  intro hpre hstep
  obtain ⟨rfl, rfl⟩ := hstep
  cases hx : (a'.ftable f).inode with
  | none =>
    refine .same hh ⟨hh.counts.off f, fun ip hs => (hh.counts.seen p f ip hs).2, ?_⟩
    rw [hx]
    rfl
  | some ip =>
    refine .update (u := (R p).see f (some ip)) ⟨hh.procs.keep halive halive rfl rfl rfl,
      hh.counts.change (fun _ => rfl) (fun _ => rfl) hh.counts.closed hh.counts.off
      (hh.counts.fresh p) ?_
        (fun _ _ _ _ => rfl) fun q _ g jp hg => (hh.counts.seen q g jp hg).2,
      hh.pipes.keep rfl rfl rfl rfl, hh.unique, hh.locks.keepInodes hh.counts rfl rfl rfl rfl ?_,
      hh.dirs⟩ ⟨hh.counts.off f, fun ip hs => (hh.counts.seen p f ip hs).2, by rw [hx]⟩
    · intro g jp hg
      rcases update_cases (· = some jp) hg with ⟨rfl, hjp⟩ | ⟨-, hold⟩
      · exact ⟨hpre, hx.trans hjp⟩
      · exact hh.counts.seen p g jp hold
    · intro jp hl
      refine (hh.locks.backed p jp hl).imp_right fun ⟨g, hg⟩ => ⟨g, ?_⟩
      rw [Res.see]
      dsimp only
      refine update_one (motive := fun g s => (R p).seen g = some jp → s = some jp) g (fun hg => ?_)
        (fun _ _ hg => hg) hg
      rw [← hx, (hh.counts.seen p f jp hg).2]

theorem advance_kept : StepKept sb t p R a (.advance f n) () a' := by
  intro hpre hstep
  obtain rfl := hstep
  refine .update (u := R p) (hh.recountFile halive _ rfl rfl rfl (fun _ _ => rfl)
    (hh.counts.file_pos hpre).ne' (Nat.mod_lt _ (Nat.two_pow_pos 32)) ?_
    (fun g ip hg => ⟨hg, fun _ => hpre⟩) ?_ (hh.locks.backed p)) rfl
  · intro g hg
    by_cases he : g = f
    · rw [he] at hg
      exact .inr ⟨he, hh.counts.fresh p f hg⟩
    · exact .inl ⟨he, hg⟩
  · exact hh.counts.fresh_only hpre

theorem filedup_kept : StepKept sb t p R a (.filedup f) () a' := by
  intro hpre hstep
  obtain ⟨hpos, hfresh⟩ := hpre
  obtain ⟨-, rfl⟩ := hstep
  refine .update (u := (R p).addFile f) (hh.recountFile halive _ rfl rfl ?_ ?_ (succ_ne_zero _)
    (hh.counts.off f) ?_ ?_ ?_ (hh.locks.backed p)) rfl
  · rw [update_self]
    show (a.ftable f).ref + 1 + _ = _
    omega
  · exact fun g hg => update_of_ne hg _ _
  · refine fun g hg => .inl ⟨fun he => ?_, hg⟩
    rw [he, hfresh] at hg
    cases hg
  · exact fun g ip hg => ⟨hg, fun _ => by rw [update_self]; exact succ_pos _⟩
  · exact hh.counts.fresh_only hpos

/-- The last reference to a file is dropped. -/
theorem Holds.closeFile (hpos : 0 < (R p).files f)
    (hback : ∀ ip, (R p).locks ip ≠ none → 0 < (R p).refs ip) (h1 : (a.ftable f).ref = 1) :
    Holds sb t (a.setFile f { a.ftable f with ref := 0, type := .FD_NONE })
      (update R p (((R p).dropFile f).gain (a.ftable f))) := by
  have hone : (R p).files f = 1 := by
    have := files_le R f p
    have := hh.counts.fref f
    omega
  have hf : ((R p).dropFile f).files f = 0 := by
    show update (R p).files f _ f = 0
    rw [update_self, hone]
  -- no other process has the file
  have hnone : ∀ q, q ≠ p → (R q).files f = 0 := by
    intro q hq
    have : (R q).files f + (R p).files f ≤ filesTo R f :=
      add_le_total (f := R) (g := fun r : Res => r.files f) hq
    have := hh.counts.fref f
    omega
  rw [Res.gain_eq]
  refine hh.setFile halive ?_ ?_ ?_ ?_ (fun _ => rfl) (hh.counts.off f) ?_ ?_ ?_ ?_ ?_
  · intro ip
    have := count_update_not (f := a.ftable) (i := f) (P := fun x => x.inode = some ip)
      (a := { a.ftable f with ref := 0, type := .FD_NONE }) fun hc => by cases hc
    rw [Res.refs_gain]
    show filesOn _ ip + (R p).refs ip = filesOn _ ip + ((R p).refs ip + _)
    unfold filesOn
    omega
  · intro e
    have := count_update_not (f := a.ftable) (i := f) (P := fun x => x.pipeEnd = some e)
      (a := { a.ftable f with ref := 0, type := .FD_NONE }) fun hc => by cases hc
    rw [Res.ends_gain]
    show filesAt _ e + ((R p).ends e + _) = filesAt _ e + _
    unfold filesAt
    omega
  · show 0 + (R p).files f = _ + ((R p).dropFile f).files f
    rw [hf, hone, h1]
  · exact fun g hg => update_of_ne hg _ _
  · exact fun g hg => .inl (Res.fresh_dropFile hg)
  · exact fun g ip hg => .inl (Res.seen_dropFile hg)
  · exact hh.counts.fresh_only hpos
  · intro q hq ip hg
    have := (hh.counts.seen q f ip hg).1
    have := hnone q hq
    omega
  · intro ip hl
    left
    rw [Res.refs_gain]
    exact lt_of_lt_of_le (hback ip hl) (le_add_right _ _)

theorem filedrop_kept {b : Option File} : StepKept sb t p R a (.filedrop f) b a' := by
  intro hpre hstep
  obtain ⟨hpos, hback⟩ := hpre
  rw [Abs.Step] at hstep
  split at hstep
  · next h2 =>
    obtain ⟨rfl, rfl⟩ := hstep
    refine .update (u := (R p).dropFile f)
      (hh.recountFile halive _ rfl rfl ?_ ?_ ?_ (hh.counts.off f) ?_ ?_ ?_ fun ip hl =>
        .inl (hback ip hl)) rfl
    · rw [update_self]
      show (a.ftable f).ref - 1 + _ = _
      omega
    · exact fun g hg => update_of_ne hg _ _
    · show (a.ftable f).ref - 1 ≠ 0
      omega
    · exact fun g hg => .inl (Res.fresh_dropFile hg)
    · intro g ip hg
      obtain ⟨hgf, hold⟩ := Res.seen_dropFile hg
      exact ⟨hold, fun he => absurd he hgf⟩
    · exact hh.counts.fresh_only hpos
  · obtain ⟨h1, rfl, rfl⟩ := hstep
    exact .update (hh.closeFile halive hpos hback h1) rfl

theorem setFile_kept {dev : Option Nat} {rd wr : Bool} :
    StepKept sb t p R a (.setFile f ip dev rd wr) () a' := by
  intro hpre hstep
  obtain ⟨hfresh, hpos⟩ := hpre
  obtain rfl := hstep
  obtain ⟨-, href, hfiles⟩ := hh.counts.fresh p f hfresh
  obtain ⟨hnone, hnoEnd⟩ := hh.counts.fresh_bare hfresh
  have hunseen := hh.counts.fresh_unseen hfresh
  obtain ⟨hin, hnoEnd', href', hoff⟩ : ((a.ftable f).setUp ip dev rd wr).inode = some ip ∧
      ((a.ftable f).setUp ip dev rd wr).pipeEnd = none ∧
      ((a.ftable f).setUp ip dev rd wr).ref = (a.ftable f).ref ∧
      ((a.ftable f).setUp ip dev rd wr).off < 2 ^ 32 := by
    cases dev with
    | none => exact ⟨rfl, rfl, rfl, Nat.two_pow_pos 32⟩
    | some major => exact ⟨rfl, rfl, rfl, hh.counts.off f⟩
  refine .update
    (u := { ((R p).dropRef ip).see f (some ip) with fresh := update (R p).fresh f false })
    (hh.setFile halive ?_ ?_ ?_ (fun _ _ => rfl) ?_ hoff ?_ ?_ ?_ ?_ ?_) rfl
  · intro jp
    show filesOn a.ftable jp + (R p).refs jp = _ + ((R p).dropRef ip).refs jp
    by_cases hj : jp = ip
    · rw [hj, filesOn_open (by rw [hnone]; exact fun hc => by cases hc) hin, Res.refs_dropRef_self]
      omega
    · rw [filesOn_setFile, Res.refs_dropRef_of_ne hj]
      rw [hin, hnone]
      exact iff_of_false (fun hc => hj (some.inj hc).symm) (fun hc => by cases hc)
  · intro e
    rw [filesAt_setFile (by rw [hnoEnd, hnoEnd'])]
    rfl
  · rw [href']
    rfl
  · intro h0
    rw [href', href] at h0
    cases h0
  · exact fun g hg => .inl (update_other (· = true) hg Bool.false_ne_true)
  · intro g jp hg
    rcases update_cases (· = some jp) hg with ⟨he, hjp⟩ | hold
    · exact .inr ⟨he, by show 0 < (R p).files f; omega, hin.trans hjp⟩
    · exact .inl hold
  · exact hh.counts.fresh_only (by omega)
  · exact fun q _ jp hg => absurd hg (hunseen q jp)
  · intro jp hl
    by_cases hj : jp = ip
    · right
      refine ⟨f, ?_⟩
      show update (R p).seen f (some ip) f = some jp
      rw [update_self, hj]
    · rcases hh.locks.backed p jp hl with hr | ⟨g, hg⟩
      · left
        show 0 < ((R p).dropRef ip).refs jp
        rw [Res.refs_dropRef_of_ne hj]
        exact hr
      · right
        have hgf : g ≠ f := fun he => hunseen p jp (he ▸ hg)
        refine ⟨g, ?_⟩
        show update (R p).seen f (some ip) g = some jp
        rw [update_of_ne hgf, hg]

/-! ## Commands on pipes -/

theorem setPipe_kept {writable : Bool} : StepKept sb t p R a (.setPipe f pi writable) () a' := by
  intro hpre hstep
  obtain ⟨hfresh, hpos⟩ := hpre
  obtain rfl := hstep
  obtain ⟨-, href, hfiles⟩ := hh.counts.fresh p f hfresh
  obtain ⟨hnone, hnoEnd⟩ := hh.counts.fresh_bare hfresh
  have hunseen := hh.counts.fresh_unseen hfresh
  refine .update (u := { (R p).dropEnd (pi, writable) with fresh := update (R p).fresh f false })
    (hh.setFile halive ?_ ?_ rfl (fun _ _ => rfl) ?_ (hh.counts.off f) ?_ ?_ ?_ ?_
      (hh.locks.backed p)) rfl
  · intro ip
    have hne : (a.ftable f).inode ≠ some ip := by
      rw [hnone]
      exact fun hc => by cases hc
    rw [filesOn_setFile (iff_of_false (fun hc => by cases hc) hne)]
    rfl
  · intro e
    show _ + update (R p).ends (pi, writable) _ e = _
    by_cases he : e = (pi, writable)
    · have : filesAt (update a.ftable f ((a.ftable f).setPipe pi writable)) (pi, writable) =
          filesAt a.ftable (pi, writable) + 1 :=
        count_update_true (by rw [hnoEnd]; exact fun hc => by cases hc) rfl
      rw [he, update_self, this]
      omega
    · rw [update_of_ne he, filesAt_setFile]
      rw [hnoEnd]
      exact iff_of_false (fun hc => he (some.inj hc).symm) (fun hc => by cases hc)
  · intro h0
    rw [show (a.ftable f).ref = 0 from h0] at href
    cases href
  · exact fun g hg => .inl (update_other (· = true) hg Bool.false_ne_true)
  · intro g jp hg
    exact .inl ⟨fun he => hunseen p jp (by rw [← he]; exact hg), hg⟩
  · exact hh.counts.fresh_only (by omega)
  · exact fun q _ jp hg => absurd hg (hunseen q jp)

/-- The page of a pipe changes, and what the process holds of the pipe. -/
theorem Holds.setPipe {x : Option PipeEnds} {doomed : Option Nat}
    (hp : Pipes (a.setPipe pi x) (update R p { R p with ends := ends, doomed := doomed })) :
    Holds sb t (a.setPipe pi x) (update R p { R p with ends := ends, doomed := doomed }) :=
  ⟨hh.procs.keep halive halive rfl rfl rfl, hh.counts.keepFiles rfl (fun _ => rfl) rfl rfl rfl, hp,
    hh.unique, hh.locks.keepInodes hh.counts rfl rfl rfl rfl (hh.locks.backed p), hh.dirs⟩

theorem kalloc_kept {page b : Option Nat}
    (hstep : Abs.Step p (.kalloc page) a b a') : Kept sb t p (.kalloc page) R b a' := by
  cases b with
  | none =>
    obtain rfl := hstep
    exact .same hh rfl
  | some pi =>
    obtain ⟨hnone, rfl⟩ := hstep
    have hfree : ∀ q, (R q).doomed ≠ some pi := by
      intro q hq
      have := hh.pipes.doomed q pi hq
      rw [hnone] at this
      cases this
    refine .update (u := ((R p).addEnd (pi, false)).addEnd (pi, true)) (hh.setPipe halive
      (hh.pipes.setPipe ?_ ?_ ?_ (fun _ _ h => h) (fun hc => by cases hc) fun q _ => hfree q)) rfl
    · intro e he
      refine (Res.addEnds (r := R p)).trans ?_
      rw [if_neg he]
      rfl
    · intro w
      show _ = _ + (((R p).addEnd (pi, false)).addEnd (pi, true)).ends (pi, w)
      rw [Res.addEnds, if_pos rfl, hnone]
      cases w <;> (show 1 + _ = 0 + (_ + 1); omega)
    · exact fun pi' hd => .inl ⟨fun he => hfree p (by rw [← he]; exact hd), hd⟩

theorem pipeclose_kept {writable last : Bool} :
    StepKept sb t p R a (.pipeclose pi writable) last a' := by
  intro hpre hstep
  obtain ⟨hpos, hd⟩ := hpre
  obtain ⟨e, he, hlast, rfl⟩ := hstep
  -- the end is open
  have hopen : e.isOpen writable = true := by
    by_contra hc
    have h1 := hh.pipes.count pi writable
    rw [he, openEnds, if_neg hc] at h1
    have := ends_le R (pi, writable) p
    omega
  have hfree : ∀ q, (R q).doomed ≠ some pi := by
    intro q hq
    have := hh.pipes.doomed q pi hq
    rw [he] at this
    cases this
    cases writable <;> cases hopen
  refine .update
    (u := { (R p).dropEnd (pi, writable) with doomed := if last then some pi else none })
    (hh.setPipe halive (hh.pipes.setPipe ?_ ?_ ?_ ?_ ?_ fun q _ => hfree q)) rfl
  · intro e' hne
    exact update_of_ne (fun hc => hne (congrArg Prod.fst hc)) _ _
  · intro w
    show _ + (R p).ends (pi, w) = _ + update (R p).ends (pi, writable) _ (pi, w)
    rw [he]
    by_cases hw : w = writable
    · rw [hw, update_self, openEnds, openEnds, if_pos hopen]
      have hclosed : (e.close writable).isOpen writable = false := by cases writable <;> rfl
      rw [if_neg (by rw [hclosed]; exact Bool.false_ne_true)]
      omega
    · have hsame : (e.close writable).isOpen w = e.isOpen w := by
        cases writable <;> cases w <;> first | rfl | exact absurd rfl hw
      rw [update_of_ne (fun hc => hw (congrArg Prod.snd hc)), openEnds, openEnds, hsame]
  · intro pi' hpi'
    right
    dsimp only at hpi'
    split at hpi'
    · next hl =>
      rw [hl] at hlast
      exact ⟨(some.inj hpi').symm, congrArg some (of_decide_eq_true hlast.symm)⟩
    · cases hpi'
  · intro pi' _ hc
    rw [hd] at hc
    cases hc
  · intro hc
    rw [hlast, decide_eq_true (some.inj hc)]
    rfl

theorem kfree_kept : StepKept sb t p R a (.kfree pi) () a' := by
  intro hpre hstep
  obtain rfl := hstep
  have hpre : (R p).doomed = some pi := hpre
  have hclosed := hh.pipes.doomed p pi hpre
  refine .update (u := { R p with doomed := none }) (hh.setPipe halive
    (hh.pipes.setPipe (fun _ _ => rfl) ?_ (fun pi' hc => by cases hc) ?_ (fun hc => by cases hc)
      ?_)) rfl
  · intro w
    rw [hclosed]
    cases w <;> rfl
  · intro pi' hne hc
    rw [hpre] at hc
    exact absurd (some.inj hc).symm hne
  · exact fun q hq hc => hq (hh.pipes.one q p pi hc hpre)

/-! ## Commands on processes -/

/-- A process changes its own slot. -/
theorem Holds.setOwn {x : Proc} (hx : x = ⟨.ALIVE, cwd, ofile⟩) :
    Holds sb t (a.setProc p x) (update R p { R p with cwd := cwd, ofile := ofile }) := by
  refine hh.setProcs (hh.procs.change halive ?_ ?_ ?_ ?_ ?_ ?_)
  · rw [update_self, hx]
  · intro ch hc
    have hc' : (R p).child = some ch := hc
    rw [update_of_ne (ne_of_dead (hh.procs.child_dead hc') halive)]
    exact ⟨hh.procs.child p ch hc', hh.procs.other_child hc'⟩
  · intro q hq hs
    rwa [update_of_ne hq] at hs
  · exact fun q hq _ => update_of_ne hq _ _
  · exact fun q _ ch hc => update_of_ne (ne_of_dead (hh.procs.child_dead hc) halive) _ _
  · intro q hq hs
    rw [update_of_ne hq]
    exact hh.procs.spare q (hs.of_update hq rfl)

/-- A process changes a slot that is not alive and that no other process sets up;
    its child is the slot, or stays. -/
theorem Holds.setChild {x : Proc} {c : Option Child} (hdead : (R np).alive = false)
    (hmine : ∀ q, q ≠ p → ∀ ch', (R q).child = some ch' → ch'.np ≠ np)
    (hchild : ∀ ch, c = some ch →
      ch.np = np ∧ x = ⟨.EMBRYO, ch.cwd, ch.ofile⟩ ∨ ch.np ≠ np ∧ (R p).child = some ch)
    (hx : x.state ≠ .ALIVE) (hold : ∀ ch, (R p).child = some ch → ch.np = np ∨ c = some ch)
    (hspare : (∀ ch, c = some ch → ch.np ≠ np) → x.cwd = none ∧ x.ofile = fun _ => none) :
    Holds sb t (a.setProc np x) (update R p { R p with child := c }) := by
  have hne : p ≠ np := (ne_of_dead hdead halive).symm
  refine hh.setProcs (hh.procs.change halive ?_ ?_ ?_ ?_ ?_ ?_)
  · rw [update_of_ne hne]
    exact hh.procs.own p halive
  · intro ch hc
    rcases hchild ch hc with ⟨rfl, hx'⟩ | ⟨hne', hc'⟩
    · rw [update_self]
      exact ⟨hx', hmine⟩
    · rw [update_of_ne hne']
      exact ⟨hh.procs.child p ch hc', hh.procs.other_child hc'⟩
  · exact fun q _ => update_one q (fun hs => absurd hs hx) fun _ _ hs => hs
  · exact fun q _ ha => update_of_ne (ne_of_dead hdead ha).symm _ _
  · exact fun q hq ch hc => update_of_ne (hmine q hq ch hc) _ _
  · intro q hq hs
    have hs2 : ∀ ch, c = some ch → ch.np ≠ q :=
      fun ch hch => hs.2 p ch (by rw [update_self]; exact hch)
    by_cases hqn : q = np
    · rw [hqn, update_self]
      exact hspare (hqn ▸ hs2)
    · rw [update_of_ne hqn]
      refine hh.procs.spare q ⟨?_, fun q' ch hch => ?_⟩
      · have := hs.1
        rwa [update_of_ne hq] at this
      · by_cases hq' : q' = p
        · rw [hq'] at hch
          rcases hold ch hch with he | hc
          · rw [he]
            exact Ne.symm hqn
          · exact hs2 ch hc
        · exact hs.2 q' ch (by rw [update_of_ne hq']; exact hch)

theorem allocproc_kept {b : Option Pid} : StepKept sb t p R a .allocproc b a' := by
  intro hpre hstep
  cases b with
  | none =>
    obtain rfl := hstep
    exact .same hh rfl
  | some np =>
    obtain ⟨hunused, rfl⟩ := hstep
    have hfree : Spare R np := hh.procs.unowned (by rw [hunused]; decide) (by rw [hunused]; decide)
    -- the slot was given back empty
    obtain ⟨hcwd, hofile⟩ := hh.procs.spare np hfree
    refine .update (hh.setChild halive (c := some ⟨np, none, fun _ => none⟩) hfree.1
      (fun q _ => hfree.2 q) ?_ (fun hc => by cases hc) ?_ fun hc => absurd rfl (hc _ rfl)) rfl
    · intro ch hc
      cases hc
      refine .inl ⟨rfl, ?_⟩
      dsimp only
      rw [hcwd, hofile]
    · intro ch hc
      rw [show (R p).child = none from hpre] at hc
      cases hc

theorem freeproc_kept : StepKept sb t p R a (.freeproc np) () a' := by
  intro hpre hstep
  obtain ⟨ch, hc, rfl, hcwd, hofile⟩ := hpre
  obtain rfl := hstep
  refine .update (hh.setChild halive (c := none) (hh.procs.child_dead hc) (hh.procs.other_child hc)
    (fun ch hc => by cases hc) (fun hc => by cases hc) (of_some hc (.inl rfl)) fun _ => ?_) rfl
  rw [hh.procs.child p ch hc]
  exact ⟨hcwd, hofile⟩

/-- The child gets a working directory or a file. -/
theorem Holds.setUp (hc : (R p).child = some ch) (cwd : Option (Fin NINODE))
    (ofile : Fin NOFILE → Option (Fin NFILE)) :
    Holds sb t (a.setProc ch.np ⟨.EMBRYO, cwd, ofile⟩)
      (update R p { R p with child := some ⟨ch.np, cwd, ofile⟩ }) :=
  hh.setChild halive (hh.procs.child_dead hc) (hh.procs.other_child hc)
    (of_some rfl (.inl ⟨rfl, rfl⟩)) (fun hc => by cases hc) (of_some hc (.inl rfl)) fun hc =>
      (hc ⟨ch.np, cwd, ofile⟩ rfl rfl).elim

theorem giveFile_kept {fd : Fin NOFILE} : StepKept sb t p R a (.giveFile np fd f) () a' := by
  intro hpre hstep
  obtain ⟨ch, hc, rfl⟩ := hpre
  obtain rfl := hstep
  rw [hh.procs.child p ch hc]
  exact .update (hh.setUp halive hc _ _) (of_some hc rfl)

theorem giveCwd_kept : StepKept sb t p R a (.giveCwd np ip) () a' := by
  intro hpre hstep
  obtain ⟨ch, hc, rfl⟩ := hpre
  obtain rfl := hstep
  rw [hh.procs.child p ch hc]
  exact .update (hh.setUp halive hc _ _) (of_some hc rfl)

theorem runnable_kept : StepKept sb t p R a (.runnable np) () a' := by
  intro hpre hstep
  obtain ⟨hlocks, hfresh, ch, hc, rfl, hrefs, hfiles⟩ := hpre
  obtain rfl := hstep
  have hdead := hh.procs.child_dead hc
  have hR := hh.procs.dead ch.np hdead
  have hproc := hh.procs.child p ch hc
  have hne : p ≠ ch.np := (ne_of_dead hdead halive).symm
  have hboth : ∀ {g : Res → Nat}, g ((R p).without ch) + g (.ofChild ch) = g (R p) + g (R ch.np) →
      total g (update (update R p ((R p).without ch)) ch.np (.ofChild ch)) = total g R :=
      total_update_two hne
  -- only the other processes have children
  have hchild : ∀ q ch', (update (update R p ((R p).without ch)) ch.np (.ofChild ch) q).child =
    some ch' →
      q ≠ p ∧ (R q).child = some ch' := by
    intro q ch'
    exact update_two q (fun hq => by cases hq) (fun hq => by cases hq) fun q h1 _ hq => ⟨h1, hq⟩
  refine ⟨update (update R p ((R p).without ch)) ch.np (.ofChild ch), ⟨⟨?_, ?_, ?_, ?_, ?_, ?_⟩,
    hh.counts.move rfl rfl ?_ ?_ ?_ ?_, hh.pipes.move rfl ?_ ?_, hh.unique,
    hh.locks.move hh.counts rfl (fun ip _ => ⟨_, rfl⟩) ?_ (fun _ _ _ => rfl) ?_ ?_, hh.dirs⟩,
    ?_, ?_⟩
  · intro q
    refine update_two q (fun _ => halive) (fun _ => rfl) ?_
    intro q _ h2 hs
    rw [proc_setProc_of_ne h2] at hs
    exact hh.procs.alive q hs
  · intro q
    refine update_two q (fun hd => ?_) (fun hd => by cases hd) fun q _ _ => hh.procs.dead q
    exact absurd (halive.symm.trans hd) (by decide)
  · intro q
    refine update_two q (fun _ => ?_) (fun _ => ?_) fun q _ h2 ha => ?_
    · rw [proc_setProc_of_ne hne]
      exact hh.procs.own p halive
    · rw [proc_setProc_self, hproc]
      rfl
    · rw [proc_setProc_of_ne h2]
      exact hh.procs.own q ha
  · intro q ch' hq
    obtain ⟨h1, hq⟩ := hchild q ch' hq
    rw [proc_setProc_of_ne (hh.procs.other_child hc q h1 ch' hq)]
    exact hh.procs.child q ch' hq
  · intro q q' ch1 ch2 hq hq2
    exact hh.procs.parent q q' ch1 ch2 (hchild q ch1 hq).2 (hchild q' ch2 hq2).2
  · rintro q ⟨hd, hnot⟩
    revert hd hnot
    refine update_two q (fun hd _ => ?_) (fun hd => by cases hd) fun q h1 h2 hd hnot => ?_
    · exact absurd (halive.symm.trans hd) (by decide)
    rw [proc_setProc_of_ne h2]
    refine hh.procs.spare q ⟨hd, fun q' ch' hq' => ?_⟩
    by_cases hp : q' = p
    · rw [hp] at hq'
      rw [of_some (P := (·.np = ch.np)) hc rfl ch' hq']
      exact Ne.symm h2
    · refine hnot q' ch' ?_
      by_cases hnp : q' = ch.np
      · rw [hnp, hR] at hq'
        cases hq'
      · rw [update_of_ne hnp, update_of_ne hp, hq']
  · intro ip
    refine hboth (g := (·.refs ip)) ?_
    have h1 := hrefs ip
    rw [hR]
    show (R p).refs ip - cwdRefs ch.cwd ip + cwdRefs ch.cwd ip = (R p).refs ip + 0
    omega
  · intro f
    refine hboth (g := (·.files f)) ?_
    have h1 := hfiles f
    rw [hR]
    show (R p).files f - slots ch.ofile f + slots ch.ofile f = (R p).files f + 0
    omega
  · intro q f
    refine update_two q (fun hq => ?_) (fun hq => by cases hq) fun q _ _ hq => ⟨hq, rfl⟩
    change (R p).fresh f = true at hq
    rw [hfresh] at hq
    cases hq
  · intro q f ip
    exact update_two q (fun hq => by cases hq) (fun hq => by cases hq) fun q _ _ hq => ⟨hq, rfl⟩
  · intro e
    refine congrArg _ (hboth (g := (·.ends e)) ?_)
    rw [hR]
    rfl
  · intro q
    exact update_two q rfl (by rw [hR]; rfl) fun _ _ _ => rfl
  · intro ip h0 hpos
    exact absurd h0 hpos.ne'
  · intro q
    exact update_two q rfl (by rw [hR]; rfl) fun _ _ _ => rfl
  · intro q ip
    refine update_two q (fun hl => absurd (congrFun hlocks ip) hl) (fun hl => absurd rfl hl)
      fun q _ _ => ?_
    exact hh.locks.backed q ip
  · intro ch' hc'
    rw [hc] at hc'
    cases hc'
    rw [update_of_ne hne, update_self]
  · intro q hq
    by_cases h2 : q = ch.np
    · right
      rw [h2, update_self]
      refine ⟨fun hl => ?_, .inr ⟨rfl, rfl, rfl, rfl, rfl, rfl, rfl, rfl⟩⟩
      rw [show (R ch.np).alive = true from hl] at hdead
      cases hdead
    · exact .inl (by rw [update_of_ne h2, update_of_ne hq])

theorem zombie_kept : StepKept sb t p R a .zombie () a' := by
  intro hpre hstep
  obtain ⟨hrest, hcwd, hofile⟩ := hpre
  obtain rfl := hstep
  have hnone : ∀ q ch, (update R p .dead q).child = some ch → (R q).child = some ch := fun q ch =>
    update_one q (fun hq => by cases hq) fun _ _ hq => hq
  refine .update (u := .dead) ⟨⟨?_, ?_, ?_, ?_, ?_, ?_⟩, hh.counts.change ?_ ?_ hh.counts.closed
    hh.counts.off (fun f hf => by cases hf) (fun f ip hf => by cases hf) (fun _ _ _ _ => rfl)
    (fun q _ f ip hq => (hh.counts.seen q f ip hq).2),
    hh.pipes.keep rfl rfl hrest.ends.symm hrest.doomed.symm, hh.unique,
    hh.locks.keepInodes hh.counts rfl rfl rfl hrest.locks.symm (fun ip hl => absurd rfl hl),
    hh.dirs⟩ rfl
  · intro q
    refine update_one q (fun hs => ?_) fun q he hs => ?_
    · rw [proc_setProc_self] at hs
      cases hs
    · rw [proc_setProc_of_ne he] at hs
      exact hh.procs.alive q hs
  · exact fun q => update_one q (fun _ => rfl) fun q _ => hh.procs.dead q
  · intro q
    refine update_one q (fun ha => by cases ha) fun q he ha => ?_
    rw [proc_setProc_of_ne he]
    exact hh.procs.own q ha
  · intro q ch hq
    have hq := hnone q ch hq
    rw [proc_setProc_of_ne (ne_of_dead (hh.procs.child_dead hq) halive)]
    exact hh.procs.child q ch hq
  · intro q q' ch ch' hq hq'
    exact hh.procs.parent q q' ch ch' (hnone q ch hq) (hnone q' ch' hq')
  · intro q hs
    by_cases he : q = p
    · rw [he, proc_setProc_self, hh.procs.own p halive]
      exact ⟨hcwd, hofile⟩
    · rw [proc_setProc_of_ne he]
      exact hh.procs.spare q (hs.of_update he hrest.child.symm)
  · intro ip
    rw [hrest.refs, hcwd]
    rfl
  · intro f
    rw [hrest.files, hofile]
    have : slots (fun _ => none) f = 0 := count_eq_zero.mpr fun _ hc => by cases hc
    rw [this]
    rfl

theorem reap_kept (hstep : Abs.Step p (.reap np) a () a') : Kept sb t p (.reap np) R () a' := by
  obtain rfl := hstep
  split
  · next hz =>
    have hfree : Spare R np := hh.procs.unowned (by rw [hz]; decide) (by rw [hz]; decide)
    refine .update (u := R p)
      (hh.setChild halive (c := (R p).child) hfree.1 (fun q _ => hfree.2 q) ?_
        (fun hc => by cases hc) (fun ch hc => .inr hc) fun _ => hh.procs.spare np hfree) rfl
    exact fun ch hc => .inr ⟨hfree.2 p ch hc, hc⟩
  · rw [Abs.setProc, update_eq_self]
    exact .same hh rfl

end

/-! ## All commands -/

/-- **Every command keeps the invariant**; if the disk is followed, except for a
    write to a directory. -/
theorem Holds.step (hh : Holds sb t a R) (hok : t → a.Ok sb) (halive : (R p).alive = true)
    (hpre : Pre sb t c (R p)) (hdirs : t → NoDirWrite a c) (hframe : Abs.Frame p c a b a')
    (hstep : t → Abs.Step p c a b a') : Kept sb t p c R b a' := by
  cases c with
  | panic msg => exact hframe.elim
  | begin_op | end_op =>
    obtain rfl := hframe
    exact .same hh rfl
  | iget inum =>
    obtain ⟨x, hx, rfl⟩ := hframe
    refine .update (hh.addRef halive ?_ (hx.unique hh.unique) ?_ fun h0 => (hx.new h0).2.1) rfl
    · by_cases h0 : (a.inode b).ref = 0
      · rw [(hx.new h0).1, h0]
      · rw [hx.old (pos_of_ne_zero h0)]
    · intro hpos
      rw [hx.old hpos]
  | idup ip =>
    obtain rfl := hframe
    have hpos := hh.counts.ref_pos (.inl hpre)
    exact .update (hh.addRef halive rfl (hh.unique.setRef hpos) (fun _ => rfl) fun h0 =>
      absurd h0 hpos.ne') rfl
  | ilock ip => exact ilock_kept hh halive hpre hframe hstep
  | iunlock ip => exact iunlock_kept hh halive hpre hframe
  | iputLast ip => exact iputLast_kept hh halive hpre hframe
  | invalidate ip => exact invalidate_kept hh halive hpre hframe
  | releasesleep ip => exact releasesleep_kept hh halive hpre hframe
  | unref ip =>
    obtain rfl := hframe
    exact .update (hh.dropRef halive hpre.1 fun hl => absurd hpre.2 hl) rfl
  | ialloc type inum => exact ialloc_kept hh halive hframe hstep
  | inum ip =>
    obtain ⟨rfl, rfl⟩ := hframe
    exact .same hh ⟨fun ht => (hok ht).inum_lt ip (hh.counts.ref_pos hpre), rfl⟩
  | attr ip =>
    obtain ⟨rfl, rfl⟩ := hframe
    obtain ⟨h, hl, hv⟩ := hpre
    refine .same hh ⟨fun h' hl' => ?_, rfl⟩
    rw [hl] at hl'
    cases hl'
    exact (hh.held hl hv).2
  | size ip =>
    obtain rfl := hframe
    obtain ⟨h, hl, hv⟩ := hpre
    refine .same hh ⟨fun ht => ?_, rfl⟩
    rw [(hstep ht).1]
    exact (hok ht).size ip (hh.held hl hv).1
  | modify ip f => exact modify_kept hh halive hpre hframe
  | iupdate ip => exact iupdate_kept hh hok halive hpre hframe hstep
  | itrunc ip => exact itrunc_kept hh halive hpre hframe hstep
  | readi cp ip dst off n => exact readi_kept hh hok halive hpre hframe hstep
  | writei user cp ip src off n => exact writei_kept hh hok halive hpre hdirs hframe hstep
  | filealloc => exact filealloc_kept hh halive hframe
  | file f => exact file_kept hh halive hpre hframe
  | setFile f ip dev rd wr => exact setFile_kept hh halive hpre hframe
  | advance f n => exact advance_kept hh halive hpre hframe
  | filedup f => exact filedup_kept hh halive hpre hframe
  | filedrop f => exact filedrop_kept hh halive hpre hframe
  | kalloc page => exact kalloc_kept hh halive hframe
  | setPipe f pi writable => exact setPipe_kept hh halive hpre hframe
  | pipeclose pi writable => exact pipeclose_kept hh halive hpre hframe
  | kfree pi => exact kfree_kept hh halive hpre hframe
  | ofile fd =>
    obtain ⟨rfl, rfl⟩ := hframe
    refine .same hh ⟨?_, rfl⟩
    rw [hh.procs.own p halive]
  | fdalloc f =>
    cases b with
    | none =>
      obtain rfl := hframe
      exact .same hh rfl
    | some fd =>
      obtain ⟨hnone, rfl⟩ := hframe
      have hown := hh.procs.own p halive
      rw [hown] at hnone ⊢
      exact .update (hh.setOwn halive rfl) ⟨hnone, rfl⟩
  | fdclear fd =>
    obtain rfl := hframe
    rw [hh.procs.own p halive]
    exact .update (hh.setOwn halive rfl) rfl
  | cwd =>
    obtain ⟨hcwd, rfl⟩ := hframe
    rw [hh.procs.own p halive] at hcwd
    exact .same hh ⟨hcwd, rfl⟩
  | setCwd ip =>
    obtain rfl := hframe
    rw [hh.procs.own p halive]
    exact .update (hh.setOwn halive rfl) rfl
  | allocproc => exact allocproc_kept hh halive hpre hframe
  | freeproc np => exact freeproc_kept hh halive hpre hframe
  | giveFile np fd f => exact giveFile_kept hh halive hpre hframe
  | giveCwd np ip => exact giveCwd_kept hh halive hpre hframe
  | runnable np => exact runnable_kept hh halive hpre hframe
  | zombie => exact zombie_kept hh halive hpre hframe
  | reap np => exact reap_kept hh halive hframe

/-- The kernel and the resources of all processes. -/
structure Inv (sb : Superblock) (t : Prop) (s : Kernel) (R : Pid → Res) : Prop where
  table : t → Table sb s.fs
  holds : Holds sb t (view sb s) R

/-- The commands that the invariant allows: if the disk is followed, no write to
    a directory but of entries. -/
def allowed (sb : Superblock) (t : Prop) (_ : Pid) (c : Cmd) (s : Kernel) : Prop :=
  t → NoDirWrite (view sb s) c

/-- **The resource specification is right for the kernel.** -/
theorem sound (hsb : t → sb.Ok) :
    Sound (spec sb t) (exec sb) (allowed sb t) (Inv sb t) Res.Idle where
  cmd := by
    rintro p c s R ⟨htable, hh⟩ ⟨halive, hpre⟩ hallowed
    have hrefined : t → wp (exec sb p c) (Refined sb p c s) (fun _ _ => True) s := fun ht =>
      (exec_refines (hsb ht) (htable ht) (hh.guard ht hpre)).mono (fun _ _ h => h) fun _ _ _ =>
        trivial
    have hframe : wp (exec sb p c) (fun b s' => (view sb s).Frame p c b (view sb s'))
      (fun _ _ => True) s :=
      exec_frames
    unfold wp at hrefined hframe ⊢
    cases hx : exec sb p c s with
    | error e s' => trivial
    | ok b s' =>
      rw [hx] at hrefined hframe
      obtain ⟨R', hh', hpost, hoth⟩ :=
        hh.step (fun ht => view_ok (htable ht)) halive hpre hallowed hframe fun ht =>
          (hrefined ht).2
      exact ⟨R', ⟨fun ht => (hrefined ht).1, hh'⟩, hpost, hoth⟩

end Lemmas

end NoviceKernel.Sys
