import NoviceKernel.Lib.Ring
import NoviceKernel.Lib.TransitionSystem
import NoviceKernel.Lib.Count

/-! # The console's line discipline (`console.c`)

    Interrupts put characters into a ring, readers take lines out of it.

    1. **Model**: `consoleintr` and the rounds of `consoleread`, with any number of
       readers and of processors that take interrupts.
    2. **The line editor**: what the characters amount to, without a ring.
    3. **Refinement**: the ring stands for what the editor has committed and nobody
       has removed, and behind it for the line that is being edited.
    4. **The line discipline** in every run.

    Whoever holds `cons.lock` is alone with `cons`, so a round of a loop is one step.
    `sleep` takes the sleeper's own lock before it gives up `cons.lock`: it is
    asleep before a `wakeup` can look for it. -/

namespace NoviceKernel.Console

open TransitionSystem Function Count List

/-! ## 1. Model -/

def INPUT_BUF : Nat := 128

/-- `C(x)`: control-x. -/
def ctrl (x : Char) : UInt8 := x.toNat.toUInt8 - 64

def newline : UInt8 := 10

/-- `cons`, without its lock; the indices are `uint`s. -/
structure Cons where
  buf : Nat → UInt8
  r : Nat
  w : Nat
  e : Nat

namespace Cons

/-- `cons.e--`. -/
def erase (s : Cons) : Cons := { s with e := (s.e + 2 ^ 32 - 1) % 2 ^ 32 }

/-- `cons.buf[cons.e++ % INPUT_BUF] = c`. -/
def store (s : Cons) (c : UInt8) : Cons :=
  { s with buf := update s.buf (s.e % INPUT_BUF) c, e := (s.e + 1) % 2 ^ 32 }

/-- `cons.buf[cons.r % INPUT_BUF]`. -/
def next (s : Cons) : UInt8 := s.buf (s.r % INPUT_BUF)

/-- The loop of control-U.  It ends at `cons.w`, so `cons.e - cons.w` rounds are enough. -/
def killLine : Nat → Cons → Cons
  | 0, s => s
  | n + 1, s =>
    if s.e ≠ s.w ∧ s.buf ((s.e + 2 ^ 32 - 1) % 2 ^ 32 % INPUT_BUF) ≠ newline then killLine n s.erase
      else s

end Cons

/-- The `switch` of `consoleintr`, and whether it calls `wakeup`. -/
def consoleintr (c : UInt8) (s : Cons) : Cons × Bool :=
  if c = ctrl 'P' then (s, false)
  else if c = ctrl 'U' then (s.killLine ((s.e + 2 ^ 32 - s.w) % 2 ^ 32), false)
  else if c = ctrl 'H' ∨ c = 0x7f then (if s.e ≠ s.w then s.erase else s, false)
  else if c ≠ 0 ∧ (s.e + 2 ^ 32 - s.r) % 2 ^ 32 < INPUT_BUF then
    let c := if c = 13 then newline else c
    let s := s.store c
    if c = newline ∨ c = ctrl 'D' ∨
      s.e = (s.r + INPUT_BUF) % 2 ^ 32 then ({ s with w := s.e }, true)
    else (s, false)
  else (s, false)

/-- Where a process is; `target` is the `n` of its `consoleread`. -/
inductive PC where
  | out
  | readAcquire (n : Int)
  /-- At the head of a loop of `consoleread`. -/
  | readLoop (target n : Int)
  /-- About to release the lock and to return. -/
  | readDone (v : Int)
  | asleep (target n : Int)
  /-- Runnable again, about to reacquire the lock. -/
  | woken (target n : Int)
  deriving DecidableEq

/-- Where a processor is in `consoleintr`. -/
inductive Intr where
  | out
  | acquire (c : UInt8)
  | body (c : UInt8)
  deriving DecidableEq

/-- `cons`, the processes and the processors. -/
structure State (N H : Nat) where
  /-- Whether `cons.lock` is held. -/
  locked : Bool
  cons : Cons
  killed : Fin N → Bool
  pc : Fin N → PC
  intr : Fin H → Intr

/-- What a step is seen to do. -/
inductive Event (N : Nat) where
  /-- `consoleintr(c)`. -/
  | key (c : UInt8)
  /-- A reader removes a byte. -/
  | took (p : Fin N) (c : UInt8)
  /-- A reader meets a control-D and leaves it. -/
  | left (p : Fin N)
  | returned (p : Fin N) (v : Int)
  | tau
  deriving DecidableEq

inductive Action (N H : Nat) where
  | interrupt (h : Fin H) (c : UInt8)
  | consoleread (p : Fin N) (n : Int)
  | kill (p : Fin N)
  /-- The next step of `p`; whether its `either_copyout` succeeds. -/
  | run (p : Fin N) (ok : Bool)
  /-- The next step of `consoleintr` on a processor. -/
  | handle (h : Fin H)

variable {N H : Nat}

namespace State

def goto (s : State N H) (p : Fin N) (c : PC) : State N H := { s with pc := update s.pc p c }

/-- `wakeup(&cons.r)`. -/
def wakeup (s : State N H) : State N H :=
  { s with pc := fun p => match s.pc p with
      | .asleep target n => .woken target n
      | c => c }

end State

/-- One round of the loops of `consoleread`. -/
def readRound (p : Fin N) (ok : Bool) (target n : Int) (s : State N H) : Event N × State N H :=
  if n ≤ 0 then (.tau, s.goto p (.readDone (target - n)))
  else if s.cons.r = s.cons.w then
    if s.killed p then (.tau, s.goto p (.readDone (-1)))
    else (.tau, { s.goto p (.asleep target n) with locked := false })
  else
    let c := s.cons.next
    let s := { s with cons := { s.cons with r := (s.cons.r + 1) % 2 ^ 32 } }
    if c = ctrl 'D' then
      if n < target then
        let s := { s with cons := { s.cons with r := (s.cons.r + 2 ^ 32 - 1) % 2 ^ 32 } }
        (.left p, s.goto p (.readDone (target - n)))
      else (.took p c, s.goto p (.readDone (target - n)))
    else if ok = false then (.took p c, s.goto p (.readDone (target - n)))
    else if c = newline then (.took p c, s.goto p (.readDone (target - (n - 1))))
    else (.took p c, s.goto p (.readLoop target (n - 1)))

/-- The next step of process `p`. -/
def run (p : Fin N) (ok : Bool) (s : State N H) : Option (Event N × State N H) :=
  match s.pc p with
  | .out | .asleep _ _ => none
  | .readAcquire n =>
    if s.locked then none else some (.tau, { s.goto p (.readLoop n n) with locked := true })
  | .readLoop target n => some (readRound p ok target n s)
  | .readDone v => some (.returned p v, { s.goto p .out with locked := false })
  | .woken target n =>
    if s.locked then none else some (.tau, { s.goto p (.readLoop target n) with locked := true })

/-- The next step of `consoleintr` on processor `h`. -/
def handle (h : Fin H) (s : State N H) : Option (Event N × State N H) :=
  match s.intr h with
  | .out => none
  | .acquire c =>
    if s.locked then none
    else some (.tau, { s with locked := true, intr := update s.intr h (.body c) })
  | .body c =>
    let r := consoleintr c s.cons
    let s := { s with cons := r.1, locked := false, intr := update s.intr h .out }
    some (.key c, if r.2 then s.wakeup else s)

/-- The steps of the system. -/
def exec : Action N H → State N H → Option (Event N × State N H)
  | .interrupt h c, s =>
    if s.intr h = .out then some (.tau, { s with intr := update s.intr h (.acquire c) }) else none
  | .consoleread p n, s => if s.pc p = .out then some (.tau, s.goto p (.readAcquire n)) else none
  | .kill p, s =>
    let s' := { s with killed := update s.killed p true }
    match s.pc p with
    | .asleep target n => some (.tau, s'.goto p (.woken target n))
    | _ => some (.tau, s')
  | .run p ok, s => run p ok s
  | .handle h, s => handle h s

/-- After `consoleinit`. -/
def init : State N H where
  locked := false
  cons := ⟨fun _ => 0, 0, 0, 0⟩
  killed := fun _ => false
  pc := fun _ => .out
  intr := fun _ => .out

def Initial (s : State N H) : Prop := s = init

theorem initial_init : Initial (init : State N H) := rfl

def system (N H : Nat) : System (State N H) (Event N) := ofExec Initial exec

/-! ## 2. The line editor -/

/-- What was committed, how much of it was removed, and the line being edited. -/
structure Editor where
  out : List UInt8
  removed : Nat
  line : List UInt8

namespace Editor

/-- How much the buffer has to hold. -/
def pending (ed : Editor) : Nat := ed.out.length - ed.removed + ed.line.length

/-- A character is typed.  It joins the line if there is room; a newline, a control-D or a
    full buffer commits the line. -/
def key (ed : Editor) (c : UInt8) : Editor :=
  if c = ctrl 'P' then ed
  else if c = ctrl 'U' then { ed with line := [] }
  else if c = ctrl 'H' ∨ c = 0x7f then { ed with line := ed.line.dropLast }
  else if c ≠ 0 ∧ ed.pending < INPUT_BUF then
    let c := if c = 13 then newline else c
    let ed := { ed with line := ed.line ++ [c] }
    if c = newline ∨ c = ctrl 'D' ∨
      ed.pending = INPUT_BUF then { ed with out := ed.out ++ ed.line, line := [] }
    else ed
  else ed

/-- The editor sees the characters and that bytes are removed. -/
def step (ed : Editor) : Event N → Editor
  | .key c => ed.key c
  | .took _ _ => { ed with removed := ed.removed + 1 }
  | _ => ed

end Editor

/-- The editor behind a run. -/
def editor (tr : List (Event N)) : Editor := tr.foldl Editor.step ⟨[], 0, []⟩

/-- The bytes that the readers removed, in order. -/
def takes (tr : List (Event N)) : List UInt8 :=
  tr.filterMap fun e => match e with
    | .took _ c => some c
    | _ => none

/-! ## 3. Refinement -/

/-- **The ring stands for the editor**: from `r` to `w` for what is committed and not removed,
    from `w` to `e` for the line. -/
structure Shows (s : Cons) (ed : Editor) : Prop where
  removed : ed.removed ≤ ed.out.length
  ring : Ring.Holds INPUT_BUF (2 ^ 32) s.buf s.r s.e (ed.out.drop ed.removed ++ ed.line)
  write : s.w = (s.r + (ed.out.length - ed.removed)) % 2 ^ 32
  plain : newline ∉ ed.line

section Refinement

variable {s : Cons} {ed : Editor} {c : UInt8} {n : Nat} {out line : List UInt8}

theorem INPUT_BUF_lt : INPUT_BUF < 2 ^ 32 := by decide

theorem INPUT_BUF_dvd : INPUT_BUF ∣ 2 ^ 32 := by decide

theorem Editor.length_ring (ed : Editor) :
    (ed.out.drop ed.removed ++ ed.line).length = ed.pending := by
  rw [length_append, length_drop]
  rfl

namespace Shows

section

variable (h : Shows s ed)
include h

/-- `cons.e - cons.r`. -/
theorem pending_eq : (s.e + 2 ^ 32 - s.r) % 2 ^ 32 = ed.pending := by
  rw [← h.ring.length_eq INPUT_BUF_lt, ed.length_ring]

theorem pending_le : ed.pending ≤ INPUT_BUF := by
  rw [← ed.length_ring]
  exact h.ring.fits

/-- From `r` to `w` the ring holds what is committed. -/
theorem committed : Ring.Holds INPUT_BUF (2 ^ 32) s.buf s.r s.w (ed.out.drop ed.removed) where
  read_lt := h.ring.read_lt
  write_eq := by rw [length_drop]; exact h.write
  fits := by
    have := h.ring.fits
    rw [length_append] at this
    omega
  cell := by
    intro j hj
    rw [← h.ring.cell j (by rw [length_append]; omega), getElem?_append_left hj]

/-- `cons.e - cons.w`. -/
theorem edit_eq : (s.e + 2 ^ 32 - s.w) % 2 ^ 32 = ed.line.length := by
  have hle := h.pending_le
  have he : s.e = (s.r + ed.pending) % 2 ^ 32 := by
    rw [h.ring.write_eq, ed.length_ring]
  have hw := h.write
  have hbuf : INPUT_BUF = 128 := rfl
  unfold Editor.pending at he hle
  omega

theorem edit_empty : s.e = s.w ↔ ed.line = [] := by
  have hedit := h.edit_eq
  have hw := h.write
  have he : s.e = (s.r + ed.pending) % 2 ^ 32 := by
    rw [h.ring.write_eq, ed.length_ring]
  rw [← length_eq_zero_iff]
  omega

end

/-- The last character of the line is erased. -/
theorem erase {x : UInt8} (h : Shows s ⟨out, n, line ++ [x]⟩) :
    s.buf ((s.e + 2 ^ 32 - 1) % 2 ^ 32 % INPUT_BUF) = x ∧ Shows s.erase ⟨out, n, line⟩ := by
  have hring := h.ring
  rw [← append_assoc] at hring
  obtain ⟨hx, hring'⟩ := hring.retract INPUT_BUF_lt
  refine ⟨hx, ?_⟩
  unfold Cons.erase
  exact ⟨h.removed, hring', h.write, fun hm => h.plain (mem_append_left _ hm)⟩

/-- **Control-U** erases the whole line. -/
theorem killLine (h : Shows s ⟨out, n, line⟩) : Shows (s.killLine line.length) ⟨out, n, []⟩ := by
  -- the line is erased from its end
  induction line using reverseRecOn generalizing s with
  | nil => exact h
  | append_singleton line x ih =>
    obtain ⟨hx, h'⟩ := h.erase
    have hne : s.e ≠ s.w := by
      intro he
      have := h.edit_empty.mp he
      simp at this
    have hnl : s.buf ((s.e + 2 ^ 32 - 1) % 2 ^ 32 % INPUT_BUF) ≠ newline := by
      rw [hx]
      exact fun he => h.plain (by simp [he])
    rw [length_append, length_singleton, Cons.killLine, if_pos ⟨hne, hnl⟩]
    exact ih h'

variable (h : Shows s ed)
include h

/-- A character is stored, and nothing is committed. -/
theorem store (hlt : ed.pending < INPUT_BUF) (hc : c ≠ newline) :
    Shows (s.store c) { ed with line := ed.line ++ [c] } where
  removed := h.removed
  ring := by
    have := h.ring.put INPUT_BUF_dvd (by rwa [ed.length_ring]) c
    rwa [append_assoc] at this
  write := h.write
  plain := by
    intro hm
    rcases mem_append.mp hm with hm | hm
    · exact h.plain hm
    · exact hc (mem_singleton.mp hm).symm

/-- A character is stored, and the line is committed. -/
theorem commit (hlt : ed.pending < INPUT_BUF) :
    Shows { s.store c with w := (s.store c).e } ⟨ed.out ++ (ed.line ++ [c]), ed.removed, []⟩ := by
  have hring := h.ring.put INPUT_BUF_dvd (by rwa [ed.length_ring]) c
  have hle := h.removed
  have hdrop : (ed.out ++ (ed.line ++ [c])).drop ed.removed =
      ed.out.drop ed.removed ++ ed.line ++ [c] := by
    rw [drop_append_of_le_length hle, append_assoc]
  have hlen : (ed.out ++ (ed.line ++ [c])).length - ed.removed = ed.pending + 1 := by
    simp only [length_append, length_singleton, Editor.pending]
    omega
  refine ⟨?_, ?_, ?_, by simp⟩
  · simp only [length_append]
    omega
  · rw [append_nil, hdrop]
    exact hring
  · change (s.e + 1) % 2 ^ 32 = (s.r + _) % 2 ^ 32
    rw [hlen, hring.write_eq, length_append, ed.length_ring]
    rfl

/-- **Backspace** erases a character of the line, if there is one. -/
theorem backspace :
    Shows (if s.e ≠ s.w then s.erase else s) { ed with line := ed.line.dropLast } := by
  rcases eq_nil_or_concat ed.line with hnil | ⟨line, x, hline⟩
  · rw [if_neg (not_not.mpr (h.edit_empty.mpr hnil)), hnil]
    refine ⟨h.removed, ?_, h.write, by simp⟩
    have := h.ring
    rwa [hnil] at this
  · have hne : s.e ≠ s.w := by
      intro he
      have := h.edit_empty.mp he
      simp [hline] at this
    have h' : Shows s ⟨ed.out, ed.removed, line ++ [x]⟩ := by
      rw [← concat_eq_append, ← hline]
      exact h
    rw [if_pos hne, hline, concat_eq_append, dropLast_concat]
    exact h'.erase.2

/-- **Any other character** is stored, and may commit the line. -/
theorem type (hlt : ed.pending < INPUT_BUF) (c : UInt8) :
    Shows (if c = newline ∨ c = ctrl 'D' ∨ (s.store c).e = ((s.store c).r + INPUT_BUF) % 2 ^ 32
        then ({ s.store c with w := (s.store c).e }, true) else (s.store c, false)).1
      (if c = newline ∨ c = ctrl 'D' ∨
          ({ ed with line := ed.line ++ [c] } : Editor).pending = INPUT_BUF
        then ⟨ed.out ++ (ed.line ++ [c]), ed.removed, []⟩
        else { ed with line := ed.line ++ [c] }) := by
  -- the ring is full when the editor says so
  have hfull : (s.store c).e = ((s.store c).r + INPUT_BUF) % 2 ^ 32 ↔
      ({ ed with line := ed.line ++ [c] } : Editor).pending = INPUT_BUF := by
    have hring := h.ring.put INPUT_BUF_dvd (by rwa [ed.length_ring]) c
    rw [append_assoc] at hring
    rw [← Editor.length_ring]
    exact hring.full_iff INPUT_BUF_lt
  by_cases hc : c = newline ∨ c = ctrl 'D' ∨ ({ ed with line := ed.line ++ [c] } : Editor).pending =
    INPUT_BUF
  · rw [if_pos hc, if_pos (hc.imp_right fun hc => hc.imp_right hfull.mpr)]
    exact h.commit hlt
  · rw [if_neg hc, if_neg fun hc' => hc (hc'.imp_right fun hc' => hc'.imp_right hfull.mp)]
    exact h.store hlt fun he => hc (.inl he)

/-- **A character** does to the ring what it does to the editor. -/
theorem key (c : UInt8) : Shows (consoleintr c s).1 (ed.key c) := by
  unfold consoleintr Editor.key
  by_cases hP : c = ctrl 'P'
  · rw [if_pos hP, if_pos hP]
    exact h
  rw [if_neg hP, if_neg hP]
  by_cases hU : c = ctrl 'U'
  · rw [if_pos hU, if_pos hU, h.edit_eq]
    exact Shows.killLine h
  rw [if_neg hU, if_neg hU]
  by_cases hH : c = ctrl 'H' ∨ c = 0x7f
  · rw [if_pos hH, if_pos hH]
    exact h.backspace
  rw [if_neg hH, if_neg hH, h.pending_eq]
  by_cases hlt : c ≠ 0 ∧ ed.pending < INPUT_BUF
  · rw [if_pos hlt, if_pos hlt]
    exact h.type hlt.2 _
  · rw [if_neg hlt, if_neg hlt]
    exact h

/-- **A byte is removed**: the first that is committed. -/
theorem take (hne : s.r ≠ s.w) :
    ed.out[ed.removed]? = some s.next ∧
      Shows { s with r := (s.r + 1) % 2 ^ 32 } { ed with removed := ed.removed + 1 } := by
  have hcom := h.committed
  have hlen := mt (hcom.empty_iff INPUT_BUF_lt).mpr hne
  cases hdrop : ed.out.drop ed.removed with
  | nil => exact absurd hdrop hlen
  | cons x q =>
    have hlt : ed.removed < ed.out.length := by
      by_contra hge
      rw [drop_eq_nil_of_le (Nat.not_lt.mp hge)] at hdrop
      cases hdrop
    have hx : ed.out[ed.removed]? = some x := by
      rw [← Nat.add_zero ed.removed, ← getElem?_drop, hdrop]
      rfl
    have hq : ed.out.drop (ed.removed + 1) = q := by
      rw [← drop_drop, hdrop]
      rfl
    have hring := h.ring
    rw [hdrop, cons_append] at hring
    obtain ⟨hcell, hring'⟩ := hring.take (by decide)
    refine ⟨by rw [hx, ← hcell]; rfl, hlt, ?_, ?_, h.plain⟩
    · change Ring.Holds _ _ _ _ _ (ed.out.drop (ed.removed + 1) ++ ed.line)
      rw [hq]
      exact hring'
    · change s.w = ((s.r + 1) % 2 ^ 32 + (ed.out.length - (ed.removed + 1))) % 2 ^ 32
      rw [h.write]
      omega

end Shows

end Refinement

/-! ## 4. The line discipline -/

section Run

variable {s s' : State N H} {l : Event N} {tr : List (Event N)} {ok : Bool} {p : Fin N}

@[simp] theorem State.goto_self (s : State N H) (p : Fin N) (c : PC) : (s.goto p c).pc p = c := by
  simp [State.goto]

/-- What a step does to `cons`, by its event. -/
inductive Effect (s s' : State N H) : Event N → Prop where
  | key (c : UInt8) : s'.cons = (consoleintr c s.cons).1 → Effect s s' (.key c)
  | took {p : Fin N} (target n : Int) : s.pc p = .readLoop target n → s.cons.r ≠ s.cons.w →
      s'.cons = { s.cons with r := (s.cons.r + 1) % 2 ^ 32 } →
      (s.cons.next = ctrl 'D' → target ≤ n ∧ s'.pc p = .readDone (target - n)) →
      Effect s s' (.took p s.cons.next)
  | left {p : Fin N} (target n : Int) : s.cons.r ≠ s.cons.w → s.cons.next = ctrl 'D' → n < target →
      s'.cons = { s.cons with r := ((s.cons.r + 1) % 2 ^ 32 + 2 ^ 32 - 1) % 2 ^ 32 } →
      s'.pc p = .readDone (target - n) → Effect s s' (.left p)
  | returned {p : Fin N} {v : Int} : s.pc p = .readDone v → s'.cons = s.cons →
    Effect s s' (.returned p v)
  | tau : s'.cons = s.cons → Effect s s' .tau

/-- A read has at most its `n` bytes left. -/
def PC.Counts : PC → Prop
  | .readLoop target n | .asleep target n | .woken target n => n ≤ target
  | _ => True

/-- What a step does, and that it keeps the counts. -/
structure Move (s s' : State N H) (l : Event N) : Prop where
  effect : Effect s s' l
  counts : (∀ q, (s.pc q).Counts) → ∀ q, (s'.pc q).Counts

theorem Move.stay (heff : Effect s s' l) (hpc : s'.pc = s.pc) : Move s s' l :=
  ⟨heff, by rw [hpc]; exact id⟩

theorem Move.goto {c : PC} (heff : Effect s s' l) (hpc : s'.pc = update s.pc p c)
    (hc : (s.pc p).Counts → c.Counts) : Move s s' l := by
  refine ⟨heff, ?_⟩
  intro hs q
  rw [hpc]
  exact update_one q (hc (hs p)) fun q _ => hs q

theorem move_readRound {target n : Int} (hpc : s.pc p = .readLoop target n) :
    Move s (readRound p ok target n s).2 (readRound p ok target n s).1 := by
  have hdone : ∀ {l s' v}, Effect s s' l → s'.pc = update s.pc p (.readDone v) → Move s s' l :=
    fun heff hpc => .goto heff hpc fun _ => trivial
  have hgoto : ∀ {l s' c}, Effect s s' l → s'.pc = update s.pc p c → (n ≤ target → c.Counts) →
      Move s s' l := fun heff hpc' hc => .goto heff hpc' (by rw [hpc]; exact hc)
  unfold readRound
  split
  · exact hdone (.tau rfl) rfl
  · split
    · split
      · exact hdone (.tau rfl) rfl
      · exact hgoto (.tau rfl) rfl id
    · next hne =>
      dsimp only
      split
      · next hD =>
        split
        · next hlt => exact hdone (.left target n hne hD hlt rfl (State.goto_self ..)) rfl
        · next hge =>
          refine hdone (.took target n hpc hne rfl ?_) rfl
          exact fun _ => ⟨Int.not_lt.mp hge, State.goto_self ..⟩
      · next hD =>
        split
        · exact hdone (.took target n hpc hne rfl fun h => absurd h hD) rfl
        · split
          · exact hdone (.took target n hpc hne rfl fun h => absurd h hD) rfl
          · refine hgoto (.took target n hpc hne rfl fun h => absurd h hD) rfl fun hn => ?_
            exact Int.le_trans (Int.sub_le_self n (by decide)) hn

theorem move_run (h : run p ok s = some (l, s')) : Move s s' l := by
  unfold run at h
  split at h
  · cases h
  · cases h
  · obtain ⟨-, h⟩ := Option.ite_none_left_eq_some.mp h
    cases h
    exact .goto (.tau rfl) rfl fun _ => Int.le_refl _
  · next target n hpc =>
    have hmove : Move s (readRound p ok target n s).2 (readRound p ok target n s).1 :=
      move_readRound hpc
    rwa [Option.some.inj h] at hmove
  · next v hpc =>
    cases h
    exact .goto (.returned hpc rfl) rfl fun _ => trivial
  · next target n hpc =>
    obtain ⟨-, h⟩ := Option.ite_none_left_eq_some.mp h
    cases h
    exact .goto (.tau rfl) rfl (by rw [hpc]; exact id)

theorem counts_wakeup (hs : ∀ q, (s.pc q).Counts) : ∀ q, (s.wakeup.pc q).Counts := by
  intro q
  have hq := hs q
  simp only [State.wakeup]
  split
  · next target n hpc =>
    rw [hpc] at hq
    exact hq
  · exact hq

theorem move_handle {h : Fin H} (hh : handle h s = some (l, s')) : Move s s' l := by
  unfold handle at hh
  split at hh
  · cases hh
  · obtain ⟨-, hh⟩ := Option.ite_none_left_eq_some.mp hh
    cases hh
    exact .stay (.tau rfl) rfl
  · cases hh
    split
    · exact ⟨.key _ rfl, counts_wakeup⟩
    · exact .stay (.key _ rfl) rfl

/-- **The moves** of the system. -/
theorem move_step (h : (system N H).step s l s') : Move s s' l := by
  obtain ⟨a, ha⟩ := h
  cases a with
  | interrupt h c =>
    obtain ⟨-, ha⟩ := Option.ite_none_right_eq_some.mp ha
    cases ha
    exact .stay (.tau rfl) rfl
  | consoleread p n =>
    obtain ⟨-, ha⟩ := Option.ite_none_right_eq_some.mp ha
    cases ha
    exact .goto (.tau rfl) rfl fun _ => trivial
  | kill p =>
    rw [exec] at ha
    split at ha
    · next target n hpc =>
      cases ha
      exact .goto (.tau rfl) rfl (by rw [hpc]; exact id)
    · cases ha
      exact .stay (.tau rfl) rfl
  | run p ok => exact move_run ha
  | handle h => exact move_handle ha

/-- What is committed stays, in front of what follows. -/
theorem Editor.key_out (ed : Editor) (c : UInt8) :
    (ed.key c).removed = ed.removed ∧ ∃ rest, (ed.key c).out = ed.out ++ rest := by
  have hsame : ∃ rest, ed.out = ed.out ++ rest := ⟨[], (append_nil _).symm⟩
  unfold Editor.key
  split
  · exact ⟨rfl, hsame⟩
  split
  · exact ⟨rfl, hsame⟩
  split
  · exact ⟨rfl, hsame⟩
  split
  · -- only here something is committed
    generalize (if c = 13 then newline else c) = c'
    dsimp only
    split
    · exact ⟨rfl, _, rfl⟩
    · exact ⟨rfl, hsame⟩
  · exact ⟨rfl, hsame⟩

theorem editor_append (tr : List (Event N)) (l : Event N) :
    editor (tr ++ [l]) = (editor tr).step l := by
  simp [editor]

theorem takes_append (tr tr' : List (Event N)) : takes (tr ++ tr') = takes tr ++ takes tr' :=
  filterMap_append

/-- **The invariant** of the runs. -/
structure Inv (tr : List (Event N)) (s : State N H) : Prop where
  shows : Shows s.cons (editor tr)
  order : takes tr = (editor tr).out.take (editor tr).removed
  counts : ∀ p, (s.pc p).Counts

theorem inv_init : Inv [] (init : State N H) where
  shows := by
    have h0 : 0 < 2 ^ 32 := by decide
    refine ⟨le_refl 0, .empty h0, rfl, ?_⟩
    intro h
    cases h
  order := rfl
  counts := fun _ => trivial

/-- A read that leaves a control-D changes nothing, and returns what it has delivered. -/
theorem Inv.left_eof (hi : Inv tr s) (h : (system N H).step s (.left p) s') :
    s'.cons = s.cons ∧ (editor tr).out[(editor tr).removed]? = some (ctrl 'D') ∧
      ∃ v, 0 < v ∧ s'.pc p = .readDone v := by
  cases (move_step h).effect with
  | left target n hne hD hlt hc hret =>
    -- the index is back where it was
    have hr := hi.shows.ring.read_lt
    have hback : ((s.cons.r + 1) % 2 ^ 32 + 2 ^ 32 - 1) % 2 ^ 32 = s.cons.r := by omega
    refine ⟨?_, ?_, target - n, by omega, hret⟩
    · rw [hc, hback]
    · rw [← hD]
      exact (hi.shows.take hne).1

theorem Inv.step (hi : Inv tr s) (h : (system N H).step s l s') : Inv (tr ++ [l]) s' := by
  obtain ⟨heff, hcounts⟩ := move_step h
  refine ⟨?_, ?_, hcounts hi.counts⟩
  · rw [editor_append]
    cases heff with
    | key c hc =>
      rw [hc]
      exact hi.shows.key c
    | took target n _ hne hc _ =>
      rw [hc]
      exact (hi.shows.take hne).2
    | left =>
      rw [(hi.left_eof h).1]
      exact hi.shows
    | returned _ hc | tau hc =>
      rw [hc]
      exact hi.shows
  · rw [editor_append, takes_append]
    cases heff with
    | key c hc =>
      obtain ⟨hrem, rest, hout⟩ := (editor tr).key_out c
      change takes tr ++ [] = ((editor tr).key c).out.take ((editor tr).key c).removed
      rw [append_nil, hi.order, hrem, hout, take_append_of_le_length hi.shows.removed]
    | took target n _ hne hc _ =>
      have hnext := (hi.shows.take hne).1
      change takes tr ++ [s.cons.next] = (editor tr).out.take ((editor tr).removed + 1)
      rw [take_add_one, hnext, ← hi.order]
      rfl
    | left _ _ _ _ _ _ _ | returned _ _ | tau _ =>
      change takes tr ++ [] = (editor tr).out.take (editor tr).removed
      rw [append_nil, hi.order]

theorem inv_trace (h : Trace (system N H) tr s) : Inv tr s := by
  refine h.invariant (I := Inv) ?_ ?_
  · intro s hs
    subst hs
    exact inv_init
  · intro tr s l s' hi hs
    exact hi.step hs

/-- A control-D that is left stays the next byte, as long as none is removed. -/
theorem next_stays (mid : List (Event N)) {c : UInt8}
    (hc : (editor tr).out[(editor tr).removed]? = some c) (hmid : ∀ p d, .took p d ∉ mid) :
    (editor (tr ++ mid)).out[(editor (tr ++ mid)).removed]? = some c := by
  induction mid using List.reverseRecOn with
  | nil => rwa [List.append_nil]
  | append_singleton mid l ih =>
    have ih := ih fun p d hm => hmid p d (List.mem_append_left _ hm)
    rw [← List.append_assoc, editor_append]
    cases l with
    | key d =>
      -- more may be committed behind it
      obtain ⟨hrem, rest, hout⟩ := (editor (tr ++ mid)).key_out d
      change ((editor (tr ++ mid)).key d).out[((editor (tr ++ mid)).key d).removed]? = some c
      rw [hrem, hout, List.getElem?_append_left, ih]
      exact (List.getElem?_eq_some_iff.mp ih).1
    | took p d => exact absurd (List.mem_append_right _ (List.mem_singleton_self _)) (hmid p d)
    | left p | returned p v | tau => exact ih

/-- A read that removes a control-D returns 0. -/
theorem Inv.took_eof (hi : Inv tr s) (h : (system N H).step s (.took p (ctrl 'D')) s') :
    s'.pc p = .readDone 0 := by
  have heff := (move_step h).effect
  generalize hD : ctrl 'D' = d at heff
  cases heff with
  | took target n hpc _ _ hdone =>
    obtain ⟨hge, hret⟩ := hdone hD.symm
    have hle : n ≤ target := by
      have := hi.counts p
      rwa [hpc] at this
    rw [hret, show target - n = 0 by omega]

/-- **The line discipline.**  In every run:
    - the indices are in order, and the buffer never holds more than `INPUT_BUF` bytes;
    - what the readers removed is, in order, what the editor committed; the rest of it is
      in the buffer from `r` to `w`, and the line from `w` to `e`;
    - a control-D that a read meets behind bytes stays where it is; the next byte that is
      removed is that control-D, and the read that removes it returns 0. -/
theorem line_discipline (h : Trace (system N H) tr s) :
    ((s.cons.w + 2 ^ 32 - s.cons.r) % 2 ^ 32 ≤ (s.cons.e + 2 ^ 32 - s.cons.r) % 2 ^ 32 ∧
      (s.cons.e + 2 ^ 32 - s.cons.r) % 2 ^ 32 ≤ INPUT_BUF) ∧
    (takes tr = (editor tr).out.take (takes tr).length ∧
      Ring.Holds INPUT_BUF (2 ^ 32) s.cons.buf s.cons.r s.cons.w
        ((editor tr).out.drop (takes tr).length) ∧
      Ring.Holds INPUT_BUF (2 ^ 32) s.cons.buf s.cons.r s.cons.e
        ((editor tr).out.drop (takes tr).length ++ (editor tr).line)) ∧
    (∀ p s', (system N H).step s (.left p) s' →
      s'.cons = s.cons ∧ ∃ v, 0 < v ∧ s'.pc p = .readDone v) ∧
    (∀ tr₁ p mid q c, tr = tr₁ ++ .left p :: mid ++ [.took q c] → (∀ q' c', .took q' c' ∉ mid) →
      c = ctrl 'D' ∧ s.pc q = .readDone 0) ∧
    ∀ p v s', (system N H).step s (.returned p v) s' → s.pc p = .readDone v := by
  have hi := inv_trace h
  have hlen : (takes tr).length = (editor tr).removed := by
    rw [hi.order, length_take, Nat.min_eq_left hi.shows.removed]
  rw [hlen]
  refine ⟨⟨?_, ?_⟩, ⟨hi.order, hi.shows.committed, hi.shows.ring⟩, ?_, ?_, ?_⟩
  · rw [← hi.shows.committed.length_eq INPUT_BUF_lt, hi.shows.pending_eq, length_drop]
    exact Nat.le_add_right ..
  · rw [hi.shows.pending_eq]
    exact hi.shows.pending_le
  · intro p s' hs
    obtain ⟨hc, -, hret⟩ := hi.left_eof hs
    exact ⟨hc, hret⟩
  · intro tr₁ p mid q c htr hmid
    rw [htr] at h
    obtain ⟨s1, h1, hstep1⟩ := h.last_step
    -- the state in which the control-D was left
    obtain ⟨s0, s0', h0, hstep0⟩ := h1.step_of_append
    have hD := ((inv_trace h0).left_eof hstep0).2.1
    have hD' := next_stays (.left p :: mid) hD (by
      intro q' c' hm
      rcases mem_cons.mp hm with hm | hm
      · cases hm
      · exact hmid q' c' hm)
    have hi1 := inv_trace h1
    have hc : c = ctrl 'D' := by
      cases (move_step hstep1).effect with
      | took target n _ hne _ _ =>
        have := (hi1.shows.take hne).1
        rw [hD'] at this
        exact (Option.some.inj this).symm
    subst hc
    exact ⟨rfl, hi1.took_eof hstep1⟩
  · intro p v s' hs
    cases (move_step hs).effect with
    | returned hpc _ => exact hpc

/-- The only process and the only processor. -/
def reader : Fin 1 := ⟨0, Nat.zero_lt_one⟩

/-- A character is typed, with the interrupt handled at once. -/
def types (c : UInt8) : List (Action 1 1) := [.interrupt reader c, .handle reader, .handle reader]

/-- `a`, a mistake, `b` and control-D are typed and read; the next read gets the end of file. -/
def endOfFile : List (Action 1 1) :=
  types 97 ++ types 120 ++ types 8 ++ types 98 ++ types 4 ++
    [.consoleread reader 10, .run reader true, .run reader true, .run reader true, .run reader true,
      .run reader true, .consoleread reader 10, .run reader true, .run reader true]

theorem line_discipline_endOfFile :
    ∃ tr s, Trace (system 1 1) tr s ∧ takes tr = [97, 98, 4] ∧ .left reader ∈ tr ∧
      s.pc reader = .readDone 0 ∧ [97, 98, 4] = (editor tr).out.take 3 ∧
      Ring.Holds INPUT_BUF (2 ^ 32) s.cons.buf s.cons.r s.cons.w ((editor tr).out.drop 3) := by
  obtain ⟨tr, s, htr, htest⟩ := exists_trace_of_replay exec endOfFile
    (fun tr s => decide (takes tr = [97, 98, 4] ∧ .left reader ∈ tr ∧ s.pc reader = .readDone 0))
    initial_init (by decide)
  obtain ⟨htakes, hleft, hpc⟩ := of_decide_eq_true htest
  have hd := (line_discipline htr).2.1
  rw [htakes] at hd
  exact ⟨tr, s, htr, htakes, hleft, hpc, hd.1, hd.2.1⟩

end Run

end NoviceKernel.Console
