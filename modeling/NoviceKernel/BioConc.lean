import NoviceKernel.Lib.Count
import NoviceKernel.Bio

/-! # Buffers used by many processes (`bio.c`, `sleeplock.c`)

    A *user* `x : X` of the cache is one `struct buf *` variable of one process.
    It goes through `bread` (take a reference, wait for the sleep-lock, read the
    disk if the buffer is not valid), may change the contents, and goes through
    `brelse` (release the sleep-lock, drop the reference).  Each step below is
    one section under `bcache.lock`, one section of the sleep-lock, or one disk
    operation; users interleave freely.

    `Core L pins c` is the invariant of the cache against a flat array `L` of
    block contents, while the blocks in `pins` are pinned and their contents on
    the disk may be out of date. -/

namespace NoviceKernel

open Count Bcache
open Function (update update_self update_of_ne)

/-- Where a user is with the buffer `i` of block `b`. -/
inductive Stage where
  | idle
  /-- `bget`: reference taken, waiting for the sleep-lock. -/
  | waiting (b : Nat) (i : Fin NBUF)
  /-- `bread`: sleep-lock held. -/
  | locked (b : Nat) (i : Fin NBUF)
  /-- `bread` has returned; `dirty`: the contents were changed and neither
      logged nor written. -/
  | held (b : Nat) (i : Fin NBUF) (dirty : Bool)
  /-- `brelse`: sleep-lock released, reference not yet dropped. -/
  | released (b : Nat) (i : Fin NBUF)
  deriving DecidableEq

namespace Stage

/-- The block and the buffer a user refers to. -/
def on : Stage → Option (Nat × Fin NBUF)
  | idle => none
  | waiting b i | locked b i | held b i _ | released b i => some (b, i)

/-- Whether the user has a reference to buffer `i`. -/
def uses (st : Stage) (i : Fin NBUF) : Prop := st.on.map Prod.snd = some i

/-- The buffer whose sleep-lock the user holds. -/
def owned : Stage → Option (Fin NBUF)
  | locked _ i | held _ i _ => some i
  | _ => none

instance (st : Stage) (i : Fin NBUF) : Decidable (st.uses i) := inferInstanceAs (Decidable (_ = _))

end Stage

/-- The cache, the disk and the users. -/
structure Cache (X : Type) where
  bc : Bcache
  disk : Nat → Block
  user : X → Stage

variable {X : Type} [DecidableEq X]

namespace Cache

/-- Move user `x` to `st`. -/
def goto (c : Cache X) (x : X) (st : Stage) : Cache X :=
  { c with user := update c.user x st }

/-- Replace buffer `i`. -/
def setBuf (c : Cache X) (i : Fin NBUF) (v : Buf) : Cache X := { c with bc := c.bc.set i v }

/-- `bget` up to `acquiresleep`; no buffer to recycle is a panic. -/
def bget (dev : Nat) (x : X) (b : Nat) (c : Cache X) : Option (Cache X) :=
  match c.user x, c.bc.bget dev b with
  | .idle, some (i, bc) => some { c.goto x (.waiting b i) with bc := bc }
  | _, _ => none

section

variable (pid : X → Nat) (x : X) (c : Cache X)

/-- `acquiresleep(&b->lock)`: waits while the lock is held. -/
def acquiresleep : Option (Cache X) :=
  match c.user x with
  | .waiting b i =>
    if (c.bc.buf i).lock = none then
      some ((c.setBuf i { c.bc.buf i with lock := some (pid x) }).goto x (.locked b i))
    else none
  | _ => none

/-- The rest of `bread`: read the block if the buffer is not valid. -/
def bread (x : X) (c : Cache X) : Option (Cache X) :=
  match c.user x with
  | .locked b i =>
    if (c.bc.buf i).valid then some (c.goto x (.held b i false))
    else some
      ((c.setBuf i { c.bc.buf i with data := c.disk (c.bc.buf i).blockno, valid := true }).goto x
      (.held b i false))
  | _ => none

/-- A change of the contents of a held buffer. -/
def modify (x : X) (v : Block) (c : Cache X) : Option (Cache X) :=
  match c.user x with
  | .held b i _ => some ((c.setBuf i { c.bc.buf i with data := v }).goto x (.held b i true))
  | _ => none

/-- What `log_write` does to the buffer: `bpin` it when its block is new in
    the log header. -/
def logWrite (x : X) (new : Bool) (c : Cache X) : Option (Cache X) :=
  match c.user x with
  | .held b i _ =>
    some { c.goto x (.held b i false) with bc := if new then c.bc.bpin i else c.bc }
  | _ => none

/-- `bwrite`. -/
def bwrite : Option (Cache X) :=
  match c.user x with
  | .held b i _ =>
    if (c.bc.buf i).lock = some (pid x) then
      some { c.goto x (.held b i false) with
        disk := update c.disk (c.bc.buf i).blockno (c.bc.buf i).data }
    else none
  | _ => none

/-- `bunpin`. -/
def bunpin (x : X) (c : Cache X) : Option (Cache X) :=
  match c.user x with
  | .held _ i _ => some { c with bc := c.bc.bunpin i }
  | _ => none

/-- `brelse` up to `releasesleep`. A changed buffer must have been logged or
    written before. -/
def releasesleep : Option (Cache X) :=
  match c.user x with
  | .held b i false =>
    if (c.bc.buf i).lock = some (pid x) then
      some ((c.setBuf i { c.bc.buf i with lock := none }).goto x (.released b i))
    else none
  | _ => none

end

/-- The section of `brelse` under `bcache.lock`. -/
def brelse (x : X) (c : Cache X) : Option (Cache X) :=
  match c.user x with
  | .released _ i => some { c.goto x .idle with bc := c.bc.brelse i }
  | _ => none

variable (c : Cache X)
include c

@[simp] theorem goto_bc (x : X) (st : Stage) : (c.goto x st).bc = c.bc := rfl
@[simp] theorem goto_disk (x : X) (st : Stage) : (c.goto x st).disk = c.disk := rfl
omit [DecidableEq X] in
@[simp] theorem setBuf_user (i : Fin NBUF) (v : Buf) : (c.setBuf i v).user = c.user := rfl
omit [DecidableEq X] in
@[simp] theorem setBuf_disk (i : Fin NBUF) (v : Buf) : (c.setBuf i v).disk = c.disk := rfl
omit [DecidableEq X] in
@[simp] theorem setBuf_bc (i : Fin NBUF) (v : Buf) : (c.setBuf i v).bc = c.bc.set i v := rfl

@[simp] theorem goto_self (x : X) (st : Stage) : (c.goto x st).user x = st := by
  simp [goto]

@[simp] theorem goto_ne {x y : X} (st : Stage) (h : y ≠ x) : (c.goto x st).user y = c.user y := by
  simp [goto, h]

end Cache

/-- Buffer `i` caches a pinned block. -/
def Bcache.Pinned (bc : Bcache) (dev : Nat) (pins : List Nat) (i : Fin NBUF) : Prop :=
  (bc.buf i).dev = dev ∧ (bc.buf i).blockno ∈ pins

instance (bc : Bcache) (dev : Nat) (pins : List Nat) (i : Fin NBUF) :
    Decidable (bc.Pinned dev pins i) := inferInstanceAs (Decidable (_ ∧ _))

/-- The invariant of the cache against the flat array `L`. -/
structure Core [Fintype X] (dev : Nat) (pid : X → Nat) (L : Nat → Block) (pins : List Nat)
    (c : Cache X) : Prop where
  wf : c.bc.WF
  holds : ∀ x b i, (c.user x).on = some (b, i) → c.bc.Holds dev b i
  /-- `refcnt` counts the users, and one more for a pinned block. -/
  refs : ∀ i, (c.bc.buf i).refcnt =
    count c.user (fun st => st.uses i) + if c.bc.Pinned dev pins i then 1 else 0
  lock : ∀ x i, (c.user x).owned = some i → (c.bc.buf i).lock = some (pid x)
  excl : ∀ x y i, (c.user x).owned = some i → (c.user y).owned = some i → x = y
  valid : ∀ x b i d, c.user x = .held b i d → (c.bc.buf i).valid = true
  /-- A valid buffer that nobody is changing has the logical contents. -/
  data : ∀ b i, c.bc.Holds dev b i → (c.bc.buf i).valid = true →
    (∀ x, c.user x ≠ .held b i true) → (c.bc.buf i).data = L b
  disk : ∀ b, b ∉ pins → c.disk b = L b
  pinned : ∀ b ∈ pins, ∃ i, c.bc.Holds dev b i ∧ (c.bc.buf i).valid = true

variable {st : Stage} {i : Fin NBUF} {b : Nat} {j : Fin NBUF}

namespace Stage

theorem on_of_owned (h : st.owned = some i) : ∃ b, st.on = some (b, i) := by
  cases st with
  | locked b j | held b j _ => cases h; exact ⟨b, rfl⟩
  | idle | waiting _ _ | released _ _ => cases h

theorem uses_of_on (h : st.on = some (b, i)) : st.uses i := by
  unfold uses; rw [h]; rfl

theorem not_uses_idle (i : Fin NBUF) : ¬ Stage.idle.uses i := nofun

variable (h : st.on = some (b, i))
include h

theorem on_unique {b' : Nat} (h' : st.on = some (b', j)) : b = b' ∧ i = j :=
  Prod.mk.inj (Option.some.inj (h.symm.trans h'))

theorem eq_of_owned (ho : st.owned = some j) : i = j := by
  obtain ⟨b', hb'⟩ := on_of_owned ho
  exact (on_unique h hb').2

theorem uses_iff : st.uses j ↔ i = j := by
  unfold uses; rw [h]; exact Option.some_inj

end Stage

variable {t : Stage} {bc : Bcache} {c : Cache X} {d : Nat → Block} {v : Buf} {x : X}

namespace Core

variable [Fintype X] {dev : Nat} {pid : X → Nat} {L L' : Nat → Block} {pins pins' : List Nat}
  {c c' : Cache X} {x : X} {b : Nat} {i : Fin NBUF}

variable (h : Core dev pid L pins c)
include h

omit [DecidableEq X] in
/-- Only which blocks are pinned matters. -/
theorem congr_pins (hp : ∀ b, b ∈ pins' ↔ b ∈ pins) : Core dev pid L pins' c := by
  refine { h with refs := ?_, disk := ?_, pinned := ?_ }
  · intro i
    have hp' : c.bc.Pinned dev pins' i ↔ c.bc.Pinned dev pins i := and_congr_right fun _ => hp _
    rw [h.refs i]
    simp only [hp']
  · exact fun b hb => h.disk b (fun hm => hb ((hp b).mpr hm))
  · exact fun b hb => h.pinned b ((hp b).mp hb)

/-- **Frame rule**: user `x` changes its buffer `i` of block `b`, the logical
    and the disk contents of `b`, and whether `b` is pinned, while nobody else
    holds the buffer's sleep-lock. -/
theorem change (hdev : dev ≠ 0) (hon : (c.user x).on = some (b, i)) (hst : t.on = some (b, i))
    (alone : ∀ y, y ≠ x → (c.user y).owned ≠ some i) (hvdev : v.dev = (c.bc.buf i).dev)
    (hvblk : v.blockno = (c.bc.buf i).blockno)
    (href : v.refcnt + (if b ∈ pins then 1 else 0) =
        (c.bc.buf i).refcnt + (if b ∈ pins' then 1 else 0))
    (hlock : t.owned = some i → v.lock = some (pid x))
    (hvalid : ∀ e, t = .held b i e → v.valid = true)
    (hdata : v.valid = true → t ≠ .held b i true → v.data = L' b) (hL : ∀ b', b' ≠ b → L' b' = L b')
    (hd : ∀ b', b' ≠ b → d b' = c.disk b') (hdb : b ∉ pins' → d b = L' b)
    (hpins : ∀ b', b' ≠ b → (b' ∈ pins' ↔ b' ∈ pins)) (hpin : b ∈ pins' → v.valid = true) :
    Core dev pid L' pins' { bc := c.bc.set i v, disk := d, user := update c.user x t } := by
  have hi : c.bc.Holds dev b i := h.holds x b i hon
  -- the buffers keep their identities
  have hholds : ∀ b' j, (c.bc.set i v).Holds dev b' j ↔ c.bc.Holds dev b' j := by
    intro b' j
    unfold Bcache.Holds
    by_cases hj : j = i
    · subst hj; rw [set_buf_self, hvdev, hvblk]
    · rw [set_buf_ne c.bc v hj]
  refine ⟨h.wf.set hvdev hvblk, ?_, ?_, ?_, ?_, ?_, ?_, ?_, ?_⟩
  · intro y b' j
    dsimp only
    rw [hholds]
    refine update_one y (fun hy => ?_) fun y _ => h.holds y b' j
    obtain ⟨rfl, rfl⟩ := Stage.on_unique hst hy
    exact hi
  · intro j
    have hcount : count (update c.user x t) (fun u => u.uses j) =
        count c.user (fun u => u.uses j) :=
      count_update_iff ((Stage.uses_iff hst).trans (Stage.uses_iff hon).symm)
    show ((c.bc.set i v).buf j).refcnt = count (update c.user x t) _ + _
    rw [hcount]
    by_cases hj : j = i
    · subst hj
      have h1 := h.refs j
      have hp : ∀ ps : List Nat, c.bc.Pinned dev ps j ↔ b ∈ ps := by
        intro ps; unfold Bcache.Pinned; rw [hi.1, hi.2]; exact ⟨And.right, fun hb => ⟨rfl, hb⟩⟩
      have hp' : (c.bc.set j v).Pinned dev pins' j ↔ b ∈ pins' := by
        rw [← hp pins']; unfold Bcache.Pinned; rw [set_buf_self, hvdev, hvblk]
      rw [set_buf_self]
      simp only [hp] at h1
      simp only [hp']
      omega
    · rw [set_buf_ne c.bc v hj, h.refs j]
      congr 1
      -- buffer j caches another block
      have hp' : (c.bc.set i v).Pinned dev pins' j ↔ c.bc.Pinned dev pins j := by
        unfold Bcache.Pinned
        rw [set_buf_ne c.bc v hj]
        refine and_congr_right fun hjd => hpins _ fun hjb => hj ?_
        exact h.wf.holds_unique hdev ⟨hjd, hjb⟩ hi
      simp only [hp']
  · intro y j
    dsimp only
    refine update_one y (fun hy => ?_) fun y hyx hy => ?_
    · obtain rfl := Stage.eq_of_owned hst hy
      rw [set_buf_self]
      exact hlock hy
    · have hj : j ≠ i := fun e => alone y hyx (e ▸ hy)
      rw [set_buf_ne c.bc v hj]
      exact h.lock y j hy
  · intro y z j hy hz
    have hcase : ∀ w, (update c.user x t w).owned = some j → j = i → w = x := by
      intro w
      exact update_one w (fun _ _ => rfl) fun w hwx hw hj => absurd (hj ▸ hw) (alone w hwx)
    by_cases hj : j = i
    · rw [hcase y hy hj, hcase z hz hj]
    · have hback : ∀ w, (update c.user x t w).owned = some j → (c.user w).owned = some j := by
        intro w
        exact update_one w (fun hw => absurd (Stage.eq_of_owned hst hw).symm hj) fun _ _ hw => hw
      exact h.excl y z j (hback y hy) (hback z hz)
  · intro y b' j e
    dsimp only
    refine update_one y (fun hy => ?_) fun y hyx hy => ?_
    · obtain ⟨rfl, rfl⟩ := Stage.on_unique hst (by rw [hy]; rfl)
      rw [set_buf_self]
      exact hvalid e hy
    · have hj : j ≠ i := fun e => alone y hyx (by rw [hy, e]; rfl)
      rw [set_buf_ne c.bc v hj]
      exact h.valid y b' j e hy
  · intro b' j hj hv hnd
    dsimp only at hj hv hnd ⊢
    rw [hholds] at hj
    by_cases hji : j = i
    · subst hji
      obtain rfl : b' = b := hj.2.symm.trans hi.2
      rw [set_buf_self] at hv ⊢
      exact hdata hv (by have := hnd x; rwa [update_self] at this)
    · have hbb : b' ≠ b := fun e => hji (h.wf.holds_unique hdev (e ▸ hj) hi)
      rw [set_buf_ne c.bc v hji] at hv ⊢
      rw [hL b' hbb]
      refine h.data b' j hj hv fun y hy => ?_
      by_cases hyx : y = x
      · subst hyx
        exact hji (Stage.on_unique hon (by rw [hy]; rfl)).2.symm
      · exact hnd y (by rw [update_of_ne hyx]; exact hy)
  · intro b' hb'
    by_cases hbb : b' = b
    · subst hbb; exact hdb hb'
    · show d b' = L' b'
      rw [hd b' hbb, hL b' hbb]
      exact h.disk b' (fun hm => hb' ((hpins b' hbb).mpr hm))
  · intro b' hb'
    by_cases hbb : b' = b
    · subst hbb
      exact ⟨i, (hholds _ _).mpr hi, by rw [set_buf_self]; exact hpin hb'⟩
    · obtain ⟨j, hj, hv⟩ := h.pinned b' ((hpins b' hbb).mp hb')
      have hji : j ≠ i := fun e => hbb ((e ▸ hj).2.symm.trans hi.2)
      exact ⟨j, (hholds _ _).mpr hj, by rw [set_buf_ne c.bc v hji]; exact hv⟩

omit [DecidableEq X] in
theorem alone_of_owned (hx : (c.user x).owned = some i) (y : X)
    (hy : y ≠ x) : (c.user y).owned ≠ some i :=
  fun ho => hy (h.excl y x i ho hx)

omit [DecidableEq X] in
/-- Nobody else changes the buffer. -/
theorem clean_of_owned (hx : (c.user x).owned = some i)
    (hc : c.user x ≠ .held b i true) (y : X) : c.user y ≠ .held b i true := by
  intro hy
  obtain rfl := h.excl y x i (by rw [hy]; rfl) hx
  exact hc hy

omit [DecidableEq X] in
theorem alone_of_free (hl : (c.bc.buf i).lock = none) (y : X) : (c.user y).owned ≠ some i := by
  intro ho
  rw [h.lock y i ho] at hl
  cases hl

end Core

/-! ## What each step does

    Every step of `x` keeps the invariant and leaves alone what the others hold. -/

/-- A step of `x` seen by the other users. -/
structure Frame (x : X) (c c' : Cache X) : Prop where
  user : ∀ y, y ≠ x → c'.user y = c.user y
  data : ∀ y i, y ≠ x → (c.user y).owned = some i → (c'.bc.buf i).data = (c.bc.buf i).data

/-- A step of `x` that changes one buffer nobody else holds. -/
theorem frame_set (alone : ∀ y, y ≠ x → (c.user y).owned ≠ some i) :
    Frame x c { bc := c.bc.set i v, disk := d, user := update c.user x t } where
  user := fun y hy => update_of_ne hy _ _
  data := by
    intro y j hy ho
    have hj : j ≠ i := fun e => alone y hy (e ▸ ho)
    show ((c.bc.set i v).buf j).data = _
    rw [set_buf_ne c.bc v hj]

/-- A step of `x` that changes only counts of references. -/
theorem frame_refs (h : ∀ j, ∃ n, bc.buf j = { c.bc.buf j with refcnt := n }) :
    Frame x c { c with bc := bc, user := update c.user x t } where
  user := fun y hy => update_of_ne hy _ _
  data := by
    intro y j _ _
    obtain ⟨n, hn⟩ := h j
    dsimp only
    rw [hn]

namespace Core

variable [Fintype X] {dev : Nat} {pid : X → Nat} {L L' : Nat → Block} {pins pins' : List Nat}
  {c c' : Cache X} {x : X}

section

variable {v : Block} {b : Nat} {i : Fin NBUF} {e new : Bool} (h : Core dev pid L pins c)
  (hdev : dev ≠ 0)
include h hdev

theorem acquiresleep (hop : c.acquiresleep pid x = some c') :
    Core dev pid L pins c' ∧ Frame x c c' ∧ c'.disk = c.disk ∧
    ∃ b i, c.user x = .waiting b i ∧ c'.user x = .locked b i := by
  unfold Cache.acquiresleep at hop
  split at hop
  · next b i hx =>
    obtain ⟨hl, hop⟩ := Option.ite_none_right_eq_some.mp hop
    cases hop
    have hi := h.holds x b i (by rw [hx]; rfl)
    refine ⟨?_, frame_set fun y _ => h.alone_of_free hl y, rfl, b, i, hx, Cache.goto_self _ _ _⟩
    refine h.change hdev (by rw [hx]; rfl) (t := .locked b i) rfl
      (fun y _ => h.alone_of_free hl y) rfl rfl rfl (fun _ => rfl) nofun ?_ (fun _ _ => rfl)
      (fun _ _ => rfl) (h.disk b) (fun _ _ => Iff.rfl) ?_
    · intro hv _
      exact h.data b i hi hv fun y hy => h.alone_of_free hl y (by rw [hy]; rfl)
    · intro hb
      obtain ⟨j, hj, hv⟩ := h.pinned b hb
      rwa [← h.wf.holds_unique hdev hj hi]
  · cases hop

/-- The holder of a valid buffer goes on with the contents as they are. -/
theorem keepBuf (hon : (c.user x).on = some (b, i)) (hown : (c.user x).owned = some i)
    (hv : (c.bc.buf i).valid = true) (hdata : (c.bc.buf i).data = L' b)
    (hL : ∀ b', b' ≠ b → L' b' = L b') (hd : ∀ b', b' ≠ b → d b' = c.disk b')
    (hdb : b ∉ pins → d b = L' b) :
    Core dev pid L' pins { c with disk := d, user := update c.user x (.held b i false) } ∧
    Frame x c { c with disk := d, user := update c.user x (.held b i false) } := by
  have halone := h.alone_of_owned hown
  have hself : c.bc.set i (c.bc.buf i) = c.bc := by simp [Bcache.set]
  have hcore := h.change hdev hon (v := c.bc.buf i) (t := .held b i false) rfl halone rfl rfl rfl
    (fun _ => h.lock x i hown) (fun _ _ => hv) (fun _ _ => hdata) hL hd hdb (fun _ _ => Iff.rfl)
    (fun _ => hv)
  have hframe := frame_set (d := d) (v := c.bc.buf i) (t := .held b i false) halone
  rw [hself] at hcore hframe
  exact ⟨hcore, hframe⟩

theorem bread (hop : c.bread x = some c') :
    Core dev pid L pins c' ∧ Frame x c c' ∧ c'.disk = c.disk ∧
    ∃ b i, c.user x = .locked b i ∧ c'.user x = .held b i false ∧ (c'.bc.buf i).data = L b := by
  unfold Cache.bread at hop
  split at hop
  · next b i hx =>
    have hi := h.holds x b i (by rw [hx]; rfl)
    have halone := h.alone_of_owned (x := x) (i := i) (by rw [hx]; rfl)
    have hnd := h.clean_of_owned (b := b) (i := i) (by rw [hx]; rfl) (by simp [hx])
    split at hop
    · next hv =>
      cases hop
      have hdata := h.data b i hi hv hnd
      obtain ⟨hcore, hframe⟩ := h.keepBuf hdev (x := x) (by rw [hx]; rfl) (by rw [hx]; rfl) hv hdata
        (fun _ _ => rfl) (fun _ _ => rfl) (h.disk b)
      exact ⟨hcore, hframe, rfl, b, i, hx, Cache.goto_self _ _ _, hdata⟩
    · next hv =>
      cases hop
      -- the buffer is not valid, so its block is not pinned
      have hnp : b ∉ pins := by
        intro hb
        obtain ⟨j, hj, hvj⟩ := h.pinned b hb
        rw [h.wf.holds_unique hdev hj hi] at hvj
        exact hv hvj
      have hread : c.disk (c.bc.buf i).blockno = L b := by rw [hi.2]; exact h.disk b hnp
      refine ⟨?_, frame_set halone, rfl, b, i, hx, Cache.goto_self _ _ _, ?_⟩
      · exact h.change hdev (by rw [hx]; rfl) (t := .held b i false) rfl halone rfl rfl rfl
          (fun _ => h.lock x i (by rw [hx]; rfl)) (fun _ _ => rfl) (fun _ _ => hread)
          (fun _ _ => rfl) (fun _ _ => rfl) (h.disk b) (fun _ _ => Iff.rfl) (fun _ => rfl)
      · simpa [Cache.goto] using hread
  · cases hop

theorem modify (hop : c.modify x v = some c') :
    Core dev pid L pins c' ∧ Frame x c c' ∧ c'.disk = c.disk ∧
    ∃ b i e, c.user x = .held b i e ∧ c'.user x = .held b i true ∧ (c'.bc.buf i).data = v := by
  unfold Cache.modify at hop
  split at hop
  · next b i e hx =>
    cases hop
    have hv := h.valid x b i e hx
    have halone := h.alone_of_owned (x := x) (i := i) (by rw [hx]; rfl)
    refine ⟨?_, frame_set halone, rfl, b, i, e, hx, Cache.goto_self _ _ _, ?_⟩
    · exact h.change hdev (by rw [hx]; rfl) (t := .held b i true) rfl halone rfl rfl rfl
        (fun _ => h.lock x i (by rw [hx]; rfl)) (fun _ _ => hv) (fun _ hn => absurd rfl hn)
        (fun _ _ => rfl) (fun _ _ => rfl) (h.disk b) (fun _ _ => Iff.rfl) (fun _ => hv)
    · simp [Cache.goto]
  · cases hop

theorem releasesleep (hop : c.releasesleep pid x = some c') :
    Core dev pid L pins c' ∧ Frame x c c' ∧ c'.disk = c.disk ∧
    ∃ b i, c.user x = .held b i false ∧ c'.user x = .released b i := by
  unfold Cache.releasesleep at hop
  split at hop
  · next b i hx =>
    split at hop
    · cases hop
      have hi := h.holds x b i (by rw [hx]; rfl)
      have hv := h.valid x b i false hx
      have halone := h.alone_of_owned (x := x) (i := i) (by rw [hx]; rfl)
      refine ⟨?_, frame_set halone, rfl, b, i, hx, Cache.goto_self _ _ _⟩
      refine h.change hdev (by rw [hx]; rfl) (t := .released b i) rfl halone rfl rfl rfl nofun
        nofun (fun _ _ => h.data b i hi hv ?_) (fun _ _ => rfl) (fun _ _ => rfl)
        (h.disk b) (fun _ _ => Iff.rfl) (fun _ => hv)
      exact h.clean_of_owned (by rw [hx]; rfl) (by simp [hx])
    · cases hop
  · cases hop

theorem logWrite (hx : c.user x = .held b i e) (hnew : new = true ↔ b ∉ pins)
    (hop : c.logWrite x new = some c') :
    Core dev pid (update L b (c.bc.buf i).data) (if new then b :: pins else pins) c' ∧
    Frame x c c' := by
  have hv := h.valid x b i e hx
  have halone := h.alone_of_owned (x := x) (i := i) (by rw [hx]; rfl)
  have hL : ∀ b', b' ≠ b → update L b (c.bc.buf i).data b' = L b' :=
    fun b' hb => update_of_ne hb _ _
  unfold Cache.logWrite at hop
  rw [hx] at hop
  cases hop
  cases new with
  | true =>
    have hnp := hnew.mp rfl
    refine ⟨?_, frame_set halone⟩
    refine h.change hdev (by rw [hx]; rfl) (t := .held b i false) rfl halone rfl rfl ?_
      (fun _ => h.lock x i (by rw [hx]; rfl)) (fun _ _ => hv)
      (fun _ _ => by rw [update_self]) hL (fun _ _ => rfl)
      (fun hb => absurd List.mem_cons_self hb) (fun b' hb => ?_) (fun _ => hv)
    · simp [hnp]
    · rw [if_pos rfl, List.mem_cons]
      exact or_iff_right hb
  | false =>
    have hp : b ∈ pins := by
      by_contra hnp
      cases hnew.mpr hnp
    exact h.keepBuf hdev (by rw [hx]; rfl) (by rw [hx]; rfl) hv
      (update_self b (c.bc.buf i).data L).symm hL (fun _ _ => rfl) fun hb => absurd hp hb

theorem bwrite (hop : c.bwrite pid x = some c') :
    ∃ b i e, c.user x = .held b i e ∧ c'.user x = .held b i false ∧
      c'.disk = update c.disk b (c.bc.buf i).data ∧
      Core dev pid (update L b (c.bc.buf i).data) pins c' ∧ Frame x c c' := by
  unfold Cache.bwrite at hop
  split at hop
  · next b i e hx =>
    split at hop
    · rw [(h.holds x b i (by rw [hx]; rfl)).2] at hop
      cases hop
      refine ⟨b, i, e, hx, Cache.goto_self _ _ _, rfl, ?_⟩
      exact h.keepBuf hdev (by rw [hx]; rfl) (by rw [hx]; rfl) (h.valid x b i e hx)
        (update_self b (c.bc.buf i).data L).symm (fun b' hb => update_of_ne hb _ _)
        (fun b' hb => update_of_ne hb _ _) fun _ => by rw [update_self, update_self]
    · cases hop
  · cases hop

theorem bunpin (hx : c.user x = .held b i false) (hb : b ∈ pins) (hdisk : c.disk b = L b)
    (hnew : ∀ b', b' ∈ pins' ↔ b' ∈ pins ∧ b' ≠ b) (hop : c.bunpin x = some c') :
    Core dev pid L pins' c' ∧ Frame x c c' ∧ c'.user = c.user := by
  have hi := h.holds x b i (by rw [hx]; rfl)
  have hv := h.valid x b i false hx
  have halone := h.alone_of_owned (x := x) (i := i) (by rw [hx]; rfl)
  have hnb : b ∉ pins' := fun hm => ((hnew b).mp hm).2 rfl
  unfold Cache.bunpin at hop
  rw [hx] at hop
  cases hop
  have huser : update c.user x (.held b i false) = c.user := by rw [← hx]; simp
  have hpos : 0 < (c.bc.buf i).refcnt := by
    rw [h.refs i, if_pos (show c.bc.Pinned dev pins i from ⟨hi.1, by rw [hi.2]; exact hb⟩)]
    omega
  have hcore : Core dev pid L pins' _ := h.change hdev (by rw [hx]; rfl) (t := .held b i false)
    (v := { c.bc.buf i with refcnt := (c.bc.buf i).refcnt - 1 }) rfl halone rfl rfl
    (by simp only [hb, hnb, if_true, if_false]; omega) (fun _ => h.lock x i (by rw [hx]; rfl))
    (fun _ _ => hv) (fun _ _ => h.data b i hi hv ?_) (fun _ _ => rfl) (fun _ _ => rfl)
    (fun _ => hdisk) (fun b' hb' => (hnew b').trans (and_iff_left hb')) (fun hm => absurd hm hnb)
  · have hframe := frame_set (d := c.disk) (t := .held b i false)
      (v := { c.bc.buf i with refcnt := (c.bc.buf i).refcnt - 1 }) halone
    rw [huser] at hcore hframe
    exact ⟨hcore, hframe, rfl⟩
  · exact h.clean_of_owned (by rw [hx]; rfl) (by simp [hx])

end

/-- Taking or dropping a reference: the buffers keep their identities and
    contents, and the counts of `refcnt` and of the users agree. -/
theorem reref (h : Core dev pid L pins c) (hall : ∀ j, j ∈ bc.lru)
    (hbuf : ∀ j, ∃ n, bc.buf j = { c.bc.buf j with refcnt := n })
    (href : ∀ j, (bc.buf j).refcnt + count c.user (fun u => u.uses j) =
      (c.bc.buf j).refcnt + count (update c.user x t) (fun u => u.uses j))
    (hx : (c.user x).owned = none) (ht : t.owned = none)
    (hon : ∀ b i, t.on = some (b, i) → c.bc.Holds dev b i) :
    Core dev pid L pins { c with bc := bc, user := update c.user x t } := by
  have hid : ∀ j, (bc.buf j).dev = (c.bc.buf j).dev ∧
      (bc.buf j).blockno = (c.bc.buf j).blockno := by
    intro j
    obtain ⟨n, hn⟩ := hbuf j
    rw [hn]
    exact ⟨rfl, rfl⟩
  have hholds : ∀ b j, bc.Holds dev b j ↔ c.bc.Holds dev b j := by
    intro b j; unfold Bcache.Holds; rw [(hid j).1, (hid j).2]
  have howned : ∀ y, (update c.user x t y).owned = (c.user y).owned :=
    update_proj (ht.trans hx.symm)
  have hheld : ∀ y b i e, update c.user x t y = .held b i e ↔ c.user y = .held b i e := by
    intro y b i e
    refine update_one y ?_ fun _ _ => Iff.rfl
    constructor
    · intro he; rw [he] at ht; cases ht
    · intro he; rw [he] at hx; cases hx
  refine ⟨h.wf.congr hall hid, ?_, ?_, ?_, ?_, ?_, ?_, h.disk, ?_⟩
  · intro y b j
    dsimp only
    rw [hholds]
    exact update_one y (hon b j) fun y _ => h.holds y b j
  · intro j
    have hp : bc.Pinned dev pins j ↔ c.bc.Pinned dev pins j := by
      unfold Bcache.Pinned; rw [(hid j).1, (hid j).2]
    have h1 := h.refs j
    have h2 := href j
    show (bc.buf j).refcnt = count (update c.user x t) _ + _
    simp only [hp]
    omega
  · intro y j hy
    dsimp only at hy ⊢
    obtain ⟨n, hn⟩ := hbuf j
    rw [howned] at hy
    rw [hn]
    exact h.lock y j hy
  · intro y z j hy hz
    dsimp only at hy hz
    rw [howned] at hy hz
    exact h.excl y z j hy hz
  · intro y b j e hy
    dsimp only at hy ⊢
    obtain ⟨n, hn⟩ := hbuf j
    rw [hn]
    exact h.valid y b j e ((hheld y b j e).mp hy)
  · intro b j hj hv hnd
    dsimp only at hj hv hnd ⊢
    obtain ⟨n, hn⟩ := hbuf j
    rw [hholds] at hj
    rw [hn] at hv ⊢
    exact h.data b j hj hv fun y hy => hnd y ((hheld y b j true).mpr hy)
  · intro b hb
    obtain ⟨j, hj, hv⟩ := h.pinned b hb
    obtain ⟨n, hn⟩ := hbuf j
    exact ⟨j, (hholds b j).mpr hj, by rw [hn]; exact hv⟩

omit [DecidableEq X] in
/-- A buffer without references is neither used nor pinned. -/
theorem free_of_refcnt (h : Core dev pid L pins c) (h0 : (c.bc.buf i).refcnt = 0) :
    (∀ y, ¬ (c.user y).uses i) ∧ ¬ c.bc.Pinned dev pins i := by
  have hrefs := h.refs i
  have hzero : count c.user (fun u => u.uses i) = 0 := by omega
  refine ⟨count_eq_zero.mp hzero, fun hp => ?_⟩
  rw [if_pos hp] at hrefs
  omega

/-- The user counts after `x` has taken its reference to buffer `i`. -/
theorem count_waiting (hx : c.user x = .idle) (b : Nat) (i j : Fin NBUF) :
    count (update c.user x (.waiting b i)) (fun u => u.uses j) =
      count c.user (fun u => u.uses j) + if j = i then 1 else 0 := by
  have := count_update (f := c.user) (i := x) (a := .waiting b i) (P := fun u : Stage => u.uses j)
  rw [hx, if_neg (Stage.not_uses_idle j), if_congr (Stage.uses_iff (b := b) (i := i) rfl) rfl rfl]
    at this
  rw [if_congr (eq_comm (a := j)) rfl rfl]
  exact this

variable (h : Core dev pid L pins c)
include h

/-- A buffer nobody refers to is given to a block that is not cached. -/
theorem recycle (hx : c.user x = .idle) (hwf : bc.WF) (hne : ∀ j, j ≠ i → bc.buf j = c.bc.buf j)
    (hno : ∀ j, ¬ c.bc.Holds dev b j) (h0 : (c.bc.buf i).refcnt = 0)
    (hbuf : bc.buf i = { c.bc.buf i with dev := dev, blockno := b, valid := false, refcnt := 1 }) :
    Core dev pid L pins { c with bc := bc, user := update c.user x (.waiting b i) } := by
  obtain ⟨hunused, hunpinned⟩ := h.free_of_refcnt h0
  have hnp : b ∉ pins := fun hb => by
    obtain ⟨j, hj, -⟩ := h.pinned b hb
    exact hno j hj
  have hholds : ∀ b' j, j ≠ i → (bc.Holds dev b' j ↔ c.bc.Holds dev b' j) := by
    intro b' j hj; unfold Bcache.Holds; rw [hne j hj]
  -- every user is at another buffer
  have hother : ∀ y b' j, (c.user y).on = some (b', j) → j ≠ i :=
    fun y b' j hy hj => hunused y (hj ▸ Stage.uses_of_on hy)
  refine ⟨hwf, ?_, ?_, ?_, ?_, ?_, ?_, h.disk, ?_⟩
  · intro y b' j
    dsimp only
    refine update_one y (fun hy => ?_) fun y _ hy => ?_
    · cases hy
      unfold Bcache.Holds
      rw [hbuf]
      exact ⟨rfl, rfl⟩
    · exact (hholds b' j (hother y b' j hy)).mpr (h.holds y b' j hy)
  · intro j
    show (bc.buf j).refcnt = count (update c.user x (.waiting b i)) _ + _
    rw [count_waiting hx]
    by_cases hj : j = i
    · subst hj
      have hp : ¬ bc.Pinned dev pins j := fun hp => hnp (by have := hp.2; rwa [hbuf] at this)
      have hz : count c.user (fun u => u.uses j) = 0 := count_eq_zero.mpr hunused
      rw [hz, if_pos rfl, if_neg hp, hbuf]
    · have hp : bc.Pinned dev pins j ↔ c.bc.Pinned dev pins j := by
        unfold Bcache.Pinned; rw [hne j hj]
      rw [if_neg hj, hne j hj, h.refs j]
      simp only [hp, Nat.add_zero]
  · intro y j
    dsimp only
    refine update_one y (fun hy => by cases hy) fun y _ hy => ?_
    obtain ⟨b', hb'⟩ := Stage.on_of_owned hy
    rw [hne j (hother y b' j hb')]
    exact h.lock y j hy
  · intro y z j
    dsimp only
    refine update_one y (fun hy => by cases hy) fun y _ hy => ?_
    exact update_one z (fun hz => by cases hz) fun z _ hz => h.excl y z j hy hz
  · intro y b' j e
    dsimp only
    refine update_one y (fun hy => by cases hy) fun y _ hy => ?_
    rw [hne j (hother y b' j (by rw [hy]; rfl))]
    exact h.valid y b' j e hy
  · intro b' j hj hv hnd
    dsimp only at hj hv hnd ⊢
    by_cases hji : j = i
    · subst hji; rw [hbuf] at hv; cases hv
    · rw [hne j hji] at hv ⊢
      refine h.data b' j ((hholds b' j hji).mp hj) hv fun y hy => ?_
      by_cases hyx : y = x
      · subst hyx; rw [hx] at hy; cases hy
      · exact hnd y (by rw [update_of_ne hyx]; exact hy)
  · intro b' hb'
    obtain ⟨j, hj, hv⟩ := h.pinned b' hb'
    have hji : j ≠ i := by
      rintro rfl
      exact hunpinned ⟨hj.1, by rw [hj.2]; exact hb'⟩
    exact ⟨j, (hholds b' j hji).mpr hj, by rw [hne j hji]; exact hv⟩

theorem bget (hop : c.bget dev x b = some c') :
    Core dev pid L pins c' ∧ Frame x c c' ∧ c'.disk = c.disk ∧ c.user x = .idle ∧
      ∃ i, c'.user x = .waiting b i := by
  unfold Cache.bget at hop
  split at hop
  · next i bc hx hget =>
    cases hop
    obtain ⟨hlru, hne, hcase⟩ := bget_cases h.wf.all hget
    rcases hcase with ⟨hi, hbuf⟩ | ⟨hno, h0, hbuf⟩
    · have hsame : ∀ j, ∃ n, bc.buf j = { c.bc.buf j with refcnt := n } := by
        intro j
        by_cases hj : j = i
        · subst hj; exact ⟨_, hbuf⟩
        · exact ⟨_, hne j hj⟩
      refine ⟨h.reref (fun j => hlru ▸ h.wf.all j) hsame (fun j => ?_) (by rw [hx]; rfl) rfl ?_,
        frame_refs hsame, rfl, hx, i, Cache.goto_self _ _ _⟩
      · rw [count_waiting hx]
        by_cases hj : j = i
        · subst hj; rw [hbuf, if_pos rfl]; dsimp only; omega
        · rw [hne j hj, if_neg hj]; omega
      · intro b' j hj
        cases hj
        exact hi
    · refine ⟨h.recycle hx (h.wf.bget hget) hne hno h0 hbuf,
        ⟨fun y hy => update_of_ne hy _ _, fun y j _ ho => ?_⟩, rfl, hx, i, Cache.goto_self _ _ _⟩
      obtain ⟨b', hb'⟩ := Stage.on_of_owned ho
      have hj : j ≠ i := fun e => (h.free_of_refcnt h0).1 y (e ▸ Stage.uses_of_on hb')
      show (bc.buf j).data = _
      rw [hne j hj]
  · cases hop

theorem brelse (hop : c.brelse x = some c') :
    Core dev pid L pins c' ∧ Frame x c c' ∧ c'.disk = c.disk ∧
      (∃ b i, c.user x = .released b i) ∧ c'.user x = .idle := by
  unfold Cache.brelse at hop
  split at hop
  · next b i hx =>
    cases hop
    have hsame : ∀ j, ∃ n, (c.bc.brelse i).buf j = { c.bc.buf j with refcnt := n } := by
      intro j
      by_cases hj : j = i
      · subst hj; exact ⟨_, brelse_buf_self ..⟩
      · exact ⟨_, brelse_buf_ne c.bc hj⟩
    refine ⟨h.reref (mem_brelse_lru h.wf.all) hsame (fun j => ?_) (by rw [hx]; rfl) rfl nofun,
      frame_refs hsame, rfl, ⟨b, i, hx⟩, Cache.goto_self _ _ _⟩
    have hcount := count_update_not (f := c.user) (i := x) (P := fun u : Stage => u.uses j)
      (Stage.not_uses_idle j)
    rw [hx, if_congr (Stage.uses_iff (b := b) (i := i) rfl) rfl rfl] at hcount
    by_cases hj : j = i
    · subst hj
      have := h.refs j
      rw [if_pos rfl] at hcount
      rw [brelse_buf_self]
      dsimp only
      omega
    · rw [if_neg (Ne.symm hj)] at hcount
      rw [brelse_buf_ne c.bc hj, ← hcount]
      rfl
  · cases hop

end Core

end NoviceKernel
