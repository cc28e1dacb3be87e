import NoviceKernel.Lib.Circular
import NoviceKernel.Lib.Count
import NoviceKernel.Lib.TransitionSystem
import NoviceKernel.Bio

/-! # The linked list of the buffer cache (`bio.c`)

    `Bcache` keeps the order of the buffers as a list.  Here are the pointers: each
    buffer has `prev` and `next`, and `bcache.head` closes the circle.

    1. **Code**: `binit`, `bget` and `brelse` with their loops over the pointers and
       their pointer surgery.
    2. **Refinement**: they compute what the functions on `Bcache` compute.
    3. **Runs**: any number of callers that go through `bget` and `brelse`, `bpin`
       and `bunpin`; what always holds of the list, of the identities of the buffers
       and of their reference counts. -/

namespace NoviceKernel.BioList

open Circular Count TransitionSystem Function Option Bcache

/-! ## 1. Code -/

/-- A node of the list: a buffer, or `bcache.head`. -/
abbrev Node := Option (Fin NBUF)

/-- `&bcache.head`. -/
def head : Node := none

/-- `bcache`, with the pointers. -/
structure LinkedCache where
  buf : Fin NBUF → Buf
  links : Links Node

namespace LinkedCache

variable (c : LinkedCache) (i : Fin NBUF)

def setBuf (x : Buf) : LinkedCache :=
  { c with buf := update c.buf i x }

/-- `binit`: the head is linked to itself, and each buffer put behind it. -/
def binit : LinkedCache where
  buf := Bcache.binit.buf
  links :=
    (List.finRange NBUF).foldl (fun l i => l.insert head (some i)) ⟨fun _ => head, fun _ => head⟩

/-- A test on the buffers, on the nodes. -/
def onBuf (test : Fin NBUF → Bool) (x : Node) : Bool := x.any test

/-- The section of `bget` under `bcache.lock`; `none` is `panic("bget: no buffers")`. -/
def bget (c : LinkedCache) (dev b : Nat) : Option (Fin NBUF × LinkedCache) :=
  let hit := onBuf fun i => (c.buf i).dev = dev ∧ (c.buf i).blockno = b
  match scan c.links.next head hit (NBUF + 1) (c.links.next head) with
  | some (some (some i)) => some (i, c.setBuf i { c.buf i with refcnt := (c.buf i).refcnt + 1 })
  | some none =>
    match scan c.links.prev head (onBuf fun i => (c.buf i).refcnt = 0) (NBUF + 1)
      (c.links.prev head) with
    | some (some (some i)) =>
      some (i, c.setBuf i { c.buf i with dev := dev, blockno := b, valid := false, refcnt := 1 })
    | _ => none
  | _ => none

/-- The section of `brelse` under `bcache.lock`. -/
def brelse : LinkedCache :=
  let c := c.setBuf i { c.buf i with refcnt := (c.buf i).refcnt - 1 }
  if (c.buf i).refcnt = 0 then { c with links := (c.links.unlink (some i)).insert head (some i) }
    else c

/-- `bpin`. -/
def bpin : LinkedCache :=
  c.setBuf i { c.buf i with refcnt := (c.buf i).refcnt + 1 }

/-- `bunpin`. -/
def bunpin : LinkedCache :=
  c.setBuf i { c.buf i with refcnt := (c.buf i).refcnt - 1 }

end LinkedCache

/-! ## 2. Refinement -/

/-- The pointers of `c` stand for the order of `bc`. -/
structure Models (c : LinkedCache) (bc : Bcache) : Prop where
  buf : c.buf = bc.buf
  cycle : Cycle c.links head (bc.lru.map some)

section Refinement

variable {c : LinkedCache} {bc : Bcache} {i : Fin NBUF} {xs ys : List (Fin NBUF)} {l : Links Node}

theorem mem_map_some : some i ∈ head :: xs.map some ↔ i ∈ xs := by
  simp [head]

/-- The loop of `binit`. -/
theorem cycle_foldl (hc : Cycle l head (ys.map some)) (hnd : (xs ++ ys).Nodup) :
    Cycle (xs.foldl (fun l i => l.insert head (some i)) l) head ((xs.reverse ++ ys).map some) := by
  induction xs generalizing l ys with
  | nil => exact hc
  | cons x xs ih =>
    have hx : x ∉ xs ++ ys := (List.nodup_cons.mp hnd).1
    have hnd' := (List.nodup_cons.mp hnd).2
    rw [List.foldl_cons, List.reverse_cons, List.append_assoc, List.singleton_append]
    have hc' : Cycle (l.insert head (some x)) head ((x :: ys).map some) := by
      apply hc.insert
      rw [mem_map_some]
      exact fun hm => hx (List.mem_append_right _ hm)
    exact ih hc' (List.nodup_middle.mpr hnd)

open LinkedCache

theorem binit_models : Models binit binit where
  buf := rfl
  cycle := by
    have h0 : Cycle (⟨fun _ => head, fun _ => head⟩ : Links Node) head
        (([] : List (Fin NBUF)).map some) := ⟨by simp, rfl, rfl⟩
    have hnd : (List.finRange NBUF ++ []).Nodup := by simpa using List.nodup_finRange NBUF
    have := cycle_foldl h0 hnd
    rwa [List.append_nil] at this

namespace Models

variable (h : Models c bc)
include h

theorem nodup : bc.lru.Nodup := by
  have := (List.nodup_cons.mp h.cycle.nodup).2
  exact this.of_map some

theorem length_lt : (bc.lru.map some).length < NBUF + 1 := by
  rw [List.length_map]
  have := h.nodup.length_le_card
  rw [Fintype.card_fin] at this
  omega

omit h in
/-- A search for a buffer, on the list of its nodes. -/
theorem find_map (test : Fin NBUF → Bool) :
    (xs.map some).find? (onBuf test) = (xs.find? test).map some := by
  rw [List.find?_map]
  rfl

/-- **`bget`** of the pointers is that of the list. -/
theorem bget (dev b : Nat) :
    c.bget dev b = (bc.bget dev b).map fun r => (r.1, { c with buf := r.2.buf }) := by
  have hnext := h.cycle.scan_next
    (LinkedCache.onBuf fun i => (c.buf i).dev = dev ∧ (c.buf i).blockno = b) h.length_lt
  have hprev := h.cycle.scan_prev (LinkedCache.onBuf fun i => (c.buf i).refcnt = 0) h.length_lt
  rw [find_map, h.buf] at hnext
  rw [← List.map_reverse, find_map, h.buf] at hprev
  unfold LinkedCache.bget Bcache.bget LinkedCache.setBuf
  dsimp only
  rw [h.buf, hnext, hprev]
  cases hhit : bc.lru.find? (fun i => decide (bc.Holds dev b i)) with
  | some i =>
    erw [hhit]
    rfl
  | none =>
    erw [hhit]
    cases hfree : bc.lru.reverse.find? (fun i => decide ((bc.buf i).refcnt = 0)) with
    | some i => rfl
    | none => rfl

/-- **`brelse`** of the pointers is that of the list. -/
theorem brelse (hi : i ∈ bc.lru) : Models (c.brelse i) (bc.brelse i) := by
  obtain ⟨buf, links⟩ := c
  obtain ⟨buf', lru⟩ := bc
  obtain rfl : buf = buf' := h.buf
  by_cases h0 : (buf i).refcnt - 1 = 0
  · -- the last reference: to the front
    obtain ⟨xs, ys, -, rfl, herase⟩ := List.exists_erase_eq hi
    have hc := h.cycle
    rw [List.map_append, List.map_cons] at hc
    have hc := hc.moveToFront
    rw [← List.map_append, ← List.map_cons, ← herase] at hc
    simp only [LinkedCache.brelse, LinkedCache.setBuf, Bcache.brelse, Function.update_self, h0,
      if_true]
    exact ⟨rfl, hc⟩
  · simp only [LinkedCache.brelse, LinkedCache.setBuf, Bcache.brelse, Function.update_self, h0,
      if_false]
    exact ⟨rfl, h.cycle⟩

theorem set (x : Buf) : Models (c.setBuf i x) (bc.set i x) where
  buf := by
    unfold setBuf Bcache.set
    rw [h.buf]
  cycle := h.cycle

end Models

end Refinement

/-! ## 3. Runs -/

/-- Where a caller is with a buffer. -/
inductive Use where
  | idle
  /-- `bget`: reference taken, waiting for the sleep-lock. -/
  | waiting (i : Fin NBUF)
  /-- `bget` has returned. -/
  | holding (i : Fin NBUF)
  /-- `brelse`: sleep-lock released, reference not yet dropped. -/
  | released (i : Fin NBUF)
  deriving DecidableEq

/-- The buffer that a caller holds, waits for or is about to let go. -/
def Use.on : Use → Option (Fin NBUF)
  | idle => none
  | waiting i | holding i | released i => some i

/-- The cache, the callers `u : U`, and how often each buffer is pinned.  `bpin`
    is not bounded here; `log_write` pins a block once while it is in the log, so
    that the `uint` `refcnt` does not wrap. -/
structure State (U : Type) where
  cache : LinkedCache
  use : U → Use
  pins : Fin NBUF → Nat

inductive Action (U : Type) where
  /-- `bget(dev, b)` up to `acquiresleep`. -/
  | bget (u : U) (dev b : Nat)
  | acquiresleep (u : U)
  /-- `brelse` up to `releasesleep`. -/
  | releasesleep (u : U)
  /-- The section of `brelse` under `bcache.lock`. -/
  | brelse (u : U)
  | bpin (i : Fin NBUF)
  /-- `bunpin` of a buffer that has been pinned. -/
  | bunpin (i : Fin NBUF)

section Runs

variable {U : Type} [DecidableEq U]

def State.goto (s : State U) (u : U) (x : Use) : State U := { s with use := update s.use u x }

/-- The steps; a `brelse` without the sleep-lock is a panic. -/
def step (pid : U → Nat) : Action U → State U → Option (State U)
  | .bget u dev b, s =>
    match s.use u, s.cache.bget dev b with
    | .idle, some (i, c) => some { s.goto u (.waiting i) with cache := c }
    | _, _ => none
  | .acquiresleep u, s =>
    match s.use u with
    | .waiting i =>
      if (s.cache.buf i).lock = none then
        some { s.goto u (.holding i) with
          cache := s.cache.setBuf i { s.cache.buf i with lock := some (pid u) } }
      else none
    | _ => none
  | .releasesleep u, s =>
    match s.use u with
    | .holding i =>
      if (s.cache.buf i).lock = some (pid u) then
        some { s.goto u (.released i) with
          cache := s.cache.setBuf i { s.cache.buf i with lock := none } }
      else none
    | _ => none
  | .brelse u, s =>
    match s.use u with
    | .released i => some { s.goto u .idle with cache := s.cache.brelse i }
    | _ => none
  | .bpin i, s =>
    some { s with cache := s.cache.bpin i, pins := update s.pins i (s.pins i + 1) }
  | .bunpin i, s =>
    if 0 < s.pins i then
      some { s with cache := s.cache.bunpin i, pins := update s.pins i (s.pins i - 1) }
    else none

def exec (pid : U → Nat) (a : Action U) (s : State U) : Option (Action U × State U) :=
  (step pid a s).map fun s' => (a, s')

/-- After `binit`. -/
def Initial (s : State U) : Prop := s = ⟨LinkedCache.binit, fun _ => .idle, fun _ => 0⟩

def system (pid : U → Nat) : System (State U) (Action U) := ofExec Initial (exec pid)

variable [Fintype U] {pid : U → Nat} {s s' : State U} {a : Action U} {bc : Bcache} {i : Fin NBUF}

/-- `bc` is the cache with its order as a list. -/
structure Inv (bc : Bcache) (s : State U) : Prop where
  models : Models s.cache bc
  wf : bc.WF
  /-- `refcnt` counts the callers and the pins. -/
  refs : ∀ i, (bc.buf i).refcnt = count s.use (fun x => x.on = some i) + s.pins i

omit [DecidableEq U] in
theorem inv_initial (hs : Initial s) : Inv binit s := by
  subst hs
  refine ⟨binit_models, binit_wf, ?_⟩
  intro i
  have : count (fun _ : U => Use.idle) (fun x => x.on = some i) = 0 :=
    count_eq_zero.mpr fun _ => nofun
  rw [this]
  rfl

/-- A caller that keeps its buffer. -/
theorem count_goto_same {u : U} {x : Use} (hx : x.on = (s.use u).on) (j : Fin NBUF) :
    count (s.goto u x).use (fun x => x.on = some j) = count s.use (fun x => x.on = some j) :=
  count_update_iff (by rw [hx])

/-- A step that changes the lock of a buffer. -/
theorem Inv.relock (h : Inv bc s) {u : U} {x : Use} {l : Option Nat} (hx : x.on = (s.use u).on) :
    Inv (bc.set i { bc.buf i with lock := l }) { s.goto u x with
      cache := s.cache.setBuf i { s.cache.buf i with lock := l } } where
  models := by
    rw [h.models.buf]
    exact h.models.set _
  wf := h.wf.set rfl rfl
  refs := by
    intro j
    rw [count_goto_same hx]
    by_cases hj : j = i
    · subst hj
      rw [set_buf_self]
      exact h.refs j
    · rw [set_buf_ne _ _ hj]
      exact h.refs j

theorem Inv.bget (h : Inv bc s) {u : U} {dev b : Nat} {bc' : Bcache} (hu : s.use u = .idle)
    (hb : bc.bget dev b = some (i, bc')) :
    Inv bc' { s.goto u (.waiting i) with cache := { s.cache with buf := bc'.buf } } := by
  obtain ⟨hlru, hne, hcase⟩ := bget_cases h.wf.all hb
  refine ⟨⟨rfl, by rw [hlru]; exact h.models.cycle⟩, h.wf.bget hb, ?_⟩
  intro j
  change _ = count (update s.use u (.waiting i)) (fun x => x.on = some j) + s.pins j
  by_cases hj : j = i
  · subst hj
    have hcount := count_update_true (f := s.use) (P := fun x => x.on = some j) (i := u)
      (a := .waiting j) (by rw [hu]; nofun) rfl
    have hold := h.refs j
    rw [hcount]
    rcases hcase with ⟨-, hbuf⟩ | ⟨-, hzero, hbuf⟩
    · rw [hbuf]
      dsimp only
      omega
    · rw [hbuf]
      dsimp only
      omega
  · have hcount := count_update_iff (f := s.use) (P := fun x => x.on = some j) (i := u)
      (a := .waiting i) (by rw [hu]; simp [Use.on, Ne.symm hj])
    rw [hcount, hne j hj]
    exact h.refs j

theorem Inv.brelse (h : Inv bc s) {u : U} (hu : s.use u = .released i) :
    Inv (bc.brelse i) { s.goto u .idle with cache := s.cache.brelse i } := by
  refine ⟨h.models.brelse (h.wf.all i), h.wf.brelse i, ?_⟩
  intro j
  change _ = count (update s.use u .idle) (fun x => x.on = some j) + s.pins j
  by_cases hj : j = i
  · subst hj
    have hcount := count_update_false (f := s.use) (P := fun x => x.on = some j) (i := u)
      (a := .idle) (by rw [hu]; rfl) nofun
    have hold := h.refs j
    rw [brelse_buf_self]
    dsimp only
    omega
  · have hcount := count_update_iff (f := s.use) (P := fun x => x.on = some j) (i := u)
      (a := .idle) (by rw [hu]; simp [Use.on, Ne.symm hj])
    rw [hcount, brelse_buf_ne _ hj]
    exact h.refs j

omit [DecidableEq U] in
/-- `bpin` and `bunpin`. -/
theorem Inv.repin (h : Inv bc s) {n m : Nat}
    (hn : n = count s.use (fun x => x.on = some i) + m) :
    Inv (bc.set i { bc.buf i with refcnt := n }) { s with
      cache := s.cache.setBuf i { s.cache.buf i with refcnt := n },
      pins := update s.pins i m } where
  models := by
    rw [h.models.buf]
    exact h.models.set _
  wf := h.wf.set rfl rfl
  refs := by
    intro j
    by_cases hj : j = i
    · subst hj
      rw [set_buf_self]
      simpa using hn
    · rw [set_buf_ne _ _ hj]
      simpa [Function.update_of_ne hj] using h.refs j

/-- **Every step** keeps the invariant, and gives a buffer another block only in
    `bget`, when nobody refers to it. -/
theorem Inv.step (h : Inv bc s) (hstep : step pid a s = some s') :
    (∃ bc', Inv bc' s') ∧ ∀ i, ((s'.cache.buf i).dev = (s.cache.buf i).dev ∧
        (s'.cache.buf i).blockno = (s.cache.buf i).blockno) ∨
      ((∃ u dev b, a = .bget u dev b) ∧ (s.cache.buf i).refcnt = 0) := by
  -- a buffer that is replaced by one for the same block
  have hset : ∀ (j : Fin NBUF) (x : Buf), x.dev = (s.cache.buf j).dev →
      x.blockno = (s.cache.buf j).blockno → ∀ i, ((s.cache.setBuf j x).buf i).dev =
        (s.cache.buf i).dev ∧ ((s.cache.setBuf j x).buf i).blockno = (s.cache.buf i).blockno := by
    intro j x hd hb i
    unfold LinkedCache.setBuf
    by_cases hi : i = j
    · subst hi
      simp [hd, hb]
    · simp [hi]
  cases a with
  | bget u dev b =>
    simp only [BioList.step] at hstep
    rw [h.models.bget dev b] at hstep
    split at hstep
    · next i c hu hb =>
      obtain ⟨⟨i', bc'⟩, hbget, heq⟩ := map_eq_some_iff.mp hb
      obtain ⟨rfl, rfl⟩ := Prod.mk.inj heq
      obtain rfl := some.inj hstep
      refine ⟨⟨bc', h.bget hu hbget⟩, ?_⟩
      obtain ⟨-, hne, hcase⟩ := bget_cases h.wf.all hbget
      intro j
      rw [h.models.buf]
      by_cases hj : j = i'
      · subst hj
        rcases hcase with ⟨-, hbuf⟩ | ⟨-, hzero, -⟩
        · exact .inl (by dsimp only; rw [hbuf]; exact ⟨rfl, rfl⟩)
        · exact .inr ⟨⟨u, dev, b, rfl⟩, hzero⟩
      · exact .inl (by dsimp only; rw [hne j hj]; exact ⟨rfl, rfl⟩)
    · cases hstep
  | acquiresleep u =>
    simp only [BioList.step] at hstep
    split at hstep
    · next i hu =>
      split at hstep
      · obtain rfl := some.inj hstep
        exact ⟨⟨_, h.relock (by rw [hu]; rfl)⟩, fun j => .inl (by apply hset <;> rfl)⟩
      · cases hstep
    · cases hstep
  | releasesleep u =>
    simp only [BioList.step] at hstep
    split at hstep
    · next i hu =>
      split at hstep
      · obtain rfl := some.inj hstep
        exact ⟨⟨_, h.relock (by rw [hu]; rfl)⟩, fun j => .inl (by apply hset <;> rfl)⟩
      · cases hstep
    · cases hstep
  | brelse u =>
    simp only [BioList.step] at hstep
    split at hstep
    · next i hu =>
      obtain rfl := some.inj hstep
      refine ⟨⟨_, h.brelse hu⟩, fun j => .inl ?_⟩
      have hbuf : (s.cache.brelse i).buf =
          (s.cache.setBuf i { s.cache.buf i with refcnt := (s.cache.buf i).refcnt - 1 }).buf := by
        unfold LinkedCache.brelse
        dsimp only
        split <;> rfl
      dsimp only
      rw [hbuf]
      apply hset <;> rfl
    · cases hstep
  | bpin i =>
    obtain rfl := some.inj hstep
    refine ⟨⟨_, h.repin ?_⟩, fun j => .inl (by apply hset <;> rfl)⟩
    rw [h.models.buf, h.refs i]
    omega
  | bunpin i =>
    obtain ⟨hpin, hstep⟩ := ite_none_right_eq_some.mp hstep
    obtain rfl := some.inj hstep
    refine ⟨⟨_, h.repin ?_⟩, fun j => .inl (by apply hset <;> rfl)⟩
    rw [h.models.buf, h.refs i]
    omega

theorem inv_reachable (hr : Reachable (system pid) s) : ∃ bc, Inv bc s := by
  apply hr.invariant
  · intro s hs
    exact ⟨_, inv_initial hs⟩
  · intro s l s' hI hstep
    obtain ⟨bc, h⟩ := hI
    obtain ⟨a, hex⟩ := hstep
    obtain ⟨s1, hstep, heq⟩ := map_eq_some_iff.mp hex
    obtain ⟨-, rfl⟩ := Prod.mk.inj heq
    exact (h.step hstep).1

/-- A list of all buffers, each once, has `NBUF` of them. -/
theorem length_eq_nbuf {order : List (Fin NBUF)} (hnd : order.Nodup) (hall : ∀ i, i ∈ order) :
    order.length = NBUF := by
  have hperm : order.Perm (List.finRange NBUF) :=
    (List.perm_ext_iff_of_nodup hnd (List.nodup_finRange NBUF)).mpr fun i => by simp [hall i]
  rw [hperm.length_eq, List.length_finRange]

/-- **The buffer cache.**  Following `next` from the head visits each buffer once, and
    `prev` is its inverse; no two buffers cache the same block of a device; `refcnt` is
    the number of callers that hold a buffer or wait for it, and of its pins; and a
    buffer gets another block only in `bget`, with `refcnt` 0. -/
theorem bcache_invariant (hr : Reachable (system pid) s) :
    (∃ order : List (Fin NBUF), order.Nodup ∧ order.length = NBUF ∧
      (∀ k (hk : k < order.length), s.cache.links.next^[k + 1] head = some order[k]) ∧
      s.cache.links.next^[NBUF + 1] head = head) ∧
    (∀ x, s.cache.links.prev (s.cache.links.next x) = x ∧
      s.cache.links.next (s.cache.links.prev x) = x) ∧
    (∀ i j, (s.cache.buf i).dev ≠ 0 → (s.cache.buf i).dev = (s.cache.buf j).dev →
      (s.cache.buf i).blockno = (s.cache.buf j).blockno → i = j) ∧
    (∀ i, (s.cache.buf i).refcnt = count s.use (fun x => x.on = some i) + s.pins i) ∧
    (∀ a s', step pid a s = some s' →
      ∀ i, ((s'.cache.buf i).dev = (s.cache.buf i).dev ∧
        (s'.cache.buf i).blockno = (s.cache.buf i).blockno) ∨
        ((∃ u dev b, a = .bget u dev b) ∧ (s.cache.buf i).refcnt = 0)) := by
  obtain ⟨bc, h⟩ := inv_reachable hr
  have hcycle := h.models.cycle
  have hlen := length_eq_nbuf h.models.nodup h.wf.all
  have hmem : ∀ x : Node, x ∈ head :: bc.lru.map some := by
    intro x
    cases x with
    | none => exact List.mem_cons_self
    | some i => exact mem_map_some.mpr (h.wf.all i)
  refine ⟨⟨bc.lru, h.models.nodup, hlen, ?_, ?_⟩, ?_, ?_, ?_, ?_⟩
  · intro k hk
    have hiter := hcycle.seg.iterate k (by rw [List.length_map]; omega)
    rw [List.getElem?_append_left (by rw [List.length_map]; exact hk), List.getElem?_map,
      List.getElem?_eq_getElem hk] at hiter
    exact (some.inj hiter).symm
  · have hiter := hcycle.seg.iterate NBUF (by rw [List.length_map, hlen])
    rw [List.getElem?_append_right (by rw [List.length_map, hlen]), List.length_map, hlen,
      Nat.sub_self] at hiter
    exact (some.inj hiter).symm
  · intro x
    refine ⟨hcycle.seg.prev_next (hmem x), hcycle.seg.next_prev ?_⟩
    rcases List.mem_cons.mp (hmem x) with rfl | hx
    · simp
    · exact List.mem_append_left _ hx
  · rw [h.models.buf]
    exact h.wf.uniq
  · rw [h.models.buf]
    exact h.refs
  · intro a s' hstep
    exact (h.step hstep).2

end Runs

/-- The buffer that is least recently used after `binit`. -/
def firstBuf : Fin NBUF := ⟨0, Nat.zero_lt_succ 29⟩

/-- The first caller holds block 5 of device 1 and has pinned it; the second waits. -/
def contended : List (Action Bool) :=
  [.bget true 1 5, .bget false 1 5, .acquiresleep true, .bpin firstBuf]

def pidOf (u : Bool) : Nat := if u then 3 else 4

theorem initial_binit : Initial (⟨LinkedCache.binit, fun _ => .idle, fun _ => 0⟩ : State Bool) :=
  rfl

theorem bcache_invariant_contended :
    ∃ s : State Bool, Reachable (system pidOf) s ∧ s.use true = .holding firstBuf ∧
      s.use false = .waiting firstBuf ∧ s.pins firstBuf = 1 ∧
      (s.cache.buf firstBuf).refcnt = 3 := by
  obtain ⟨tr, s, htr, ht⟩ := exists_trace_of_replay (exec pidOf) contended
    (fun _ (s : State Bool) => (s.use true == .holding firstBuf) &&
      (s.use false == .waiting firstBuf) && (s.pins firstBuf == 1)) initial_binit
      (by decide +kernel)
  simp only [Bool.and_eq_true, beq_iff_eq] at ht
  obtain ⟨⟨htrue, hfalse⟩, hpin⟩ := ht
  have hr : Reachable (system pidOf) s := ⟨tr, htr⟩
  refine ⟨s, hr, htrue, hfalse, hpin, ?_⟩
  -- two callers and one pin
  have hcount : count s.use (fun x => x.on = some firstBuf) = 2 := by
    have hall : ∀ u, (s.use u).on = some firstBuf := by
      intro u
      cases u with
      | true => rw [htrue]; rfl
      | false => rw [hfalse]; rfl
    unfold count
    rw [Finset.filter_true_of_mem fun u _ => hall u]
    rfl
  rw [(bcache_invariant hr).2.2.2.1 firstBuf, hcount, hpin]

end NoviceKernel.BioList
