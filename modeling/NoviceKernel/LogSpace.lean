import Mathlib.Algebra.Order.BigOperators.Group.Finset
import NoviceKernel.GroupCommit

/-! # Log space (`log.c`): the reservation of `begin_op`

    The group commit protocol, with operations that pass at most `MAXOPBLOCKS`
    distinct block numbers to `log_write`.  `begin_op` reserves `MAXOPBLOCKS`
    for each of them; `log_write` tests the length of the header before it looks
    whether the block is already there.

    1. **Model**: the protocol with the blocks each operation has logged.
    2. **Invariant**: the header, and what the operations may still add to it,
       fit in the log.
    3. **Result**: the header never outgrows the log; `log_write` panics exactly
       when a block of a full header is logged once more. -/

namespace NoviceKernel.LogSpace

open TransitionSystem GroupCommit Count Function Finset Nat State

/-! ## 1. Model -/

structure State (N : Nat) where
  g : GroupCommit.State N
  /-- The blocks logged by the operation that the process runs. -/
  logged : Fin N → List Nat

inductive Label (N : Nat) where
  | event (e : Event N)
  /-- `log_write` of a block of the header, while the header is full. -/
  | relog (b : Nat)
  deriving DecidableEq

variable {N : Nat} {a : Action N} {b : Nat} {size : Nat} {tr : List (Label N)}

/-- An operation passes at most `MAXOPBLOCKS` distinct blocks to `log_write`. -/
def allowed (s : State N) : Action N → Bool
  | .log_write p b => (addBlock (s.logged p) b).length ≤ MAXOPBLOCKS
  | _ => true

/-- Keep the record of the blocks logged. -/
def note (logged : Fin N → List Nat) : Event N → Fin N → List Nat
  | .began p => update logged p []
  | .logged p b => update logged p (addBlock (logged p) b)
  | _ => logged

/-- The block that the process has passed to `log_write`. -/
def block : PC → Option Nat
  | .logAcquire b | .logTest b => some b
  | _ => none

/-- What a step that does `e` is seen to do. -/
def label (s : GroupCommit.State N) (a : Action N) (e : Event N) : Label N :=
  match a with
  | .run p => match s.pc p with
    | .logTest b => if b ∈ s.lh ∧ s.lh.length = LOGSIZE then .relog b else .event e
    | _ => .event e
  | _ => .event e

def exec (size : Nat) (a : Action N) (s : State N) : Option (Label N × State N) :=
  if allowed s a then
    (GroupCommit.exec size a s.g).map fun r => (label s.g a r.1, ⟨r.2, note s.logged r.1⟩)
  else none

def init : State N := ⟨GroupCommit.init, fun _ => []⟩

def system (N size : Nat) : System (State N) (Label N) := ofExec (· = init) (exec size)

/-! ## 2. Invariant -/

/-- The panic of `log_write` that is about the size of the header. -/
def tooBig : PC := .panic "too big a transaction"

/-- What the operation of `p` may still add to the header. -/
def State.slack (s : State N) (p : Fin N) : Nat :=
  if (s.g.pc p).active = true then MAXOPBLOCKS - (s.logged p).length else 0

/-- What the operations may still add fits in the log. -/
structure Space (s : State N) : Prop where
  fits : s.g.lh.length + ∑ p, s.slack p ≤ LOGSIZE
  sub : ∀ p, (s.g.pc p).active = true → ∀ b ∈ s.logged p, b ∈ s.g.lh
  call : ∀ p b, block (s.g.pc p) = some b → (addBlock (s.logged p) b).length ≤ MAXOPBLOCKS

theorem space_init : Space (init : State N) where
  fits := by simp [init, GroupCommit.init, State.slack, PC.active]
  sub := nofun
  call := nofun

/-! ### Program points -/

section Points

variable {size : Nat} {s s' : GroupCommit.State N} {e : Event N} {p q : Fin N} {a : Action N}

/-- The test of `log_write` before its panic. -/
def Over (size : Nat) (s : GroupCommit.State N) : Prop :=
  s.lh.length ≥ LOGSIZE ∨ s.lh.length ≥ size - 1

instance (size : Nat) (s : GroupCommit.State N) : Decidable (Over size s) :=
  inferInstanceAs (Decidable (_ ∨ _))

theorem pc_of_acquire {c : PC} (h : s.acquire p c = some (e, s')) : s'.pc = update s.pc p c := by
  unfold acquire at h
  split at h <;> cases h
  rfl

theorem pc_of_wakeup {k : Nat} {next : PC} (h : wakeup s p k next = some (e, s')) :
    (s'.pc p = next ∨ s'.pc p = .out) ∧
      ∀ q, q ≠ p → s'.pc q = s.pc q ∨ s.pc q = .asleep ∧ s'.pc q = .woken := by
  have hgoto : ∀ c, (s.goto p c).pc p = c ∧ ∀ q, q ≠ p → (s.goto p c).pc q = s.pc q := fun c =>
    ⟨s.goto_self p c, fun q hq => s.goto_ne c hq⟩
  unfold wakeup at h
  split at h
  · dsimp only at h
    split at h
    · cases h
      exact ⟨.inl (hgoto _).1, fun q hq => .inl ((hgoto _).2 q hq)⟩
    · next hk hne =>
      split at h
      · cases h
      · cases h
      · next hasleep =>
        cases h
        refine ⟨.inl (goto_self _ p _), fun q hq => ?_⟩
        rw [goto_ne _ _ hq]
        by_cases hqk : q = ⟨k, hk⟩
        · subst hqk
          exact .inr ⟨hasleep, goto_self _ _ _⟩
        · exact .inl (goto_ne _ _ hqk)
      · cases h
        exact ⟨.inl (hgoto _).1, fun q hq => .inl ((hgoto _).2 q hq)⟩
  · cases h
    exact ⟨.inr (hgoto _).1, fun q hq => .inl ((hgoto _).2 q hq)⟩

/-- Where a step of `p` leads it, and that it leaves the others where they are but
    for a sleeper that it wakes. -/
theorem pc_of_run (h : run size p s = some (e, s')) :
    (block (s'.pc p) = none ∧ s'.pc p ≠ tooBig ∨
      (∃ b, s.pc p = .logAcquire b ∧ s'.pc p = .logTest b) ∨
      (∃ b, s.pc p = .logTest b ∧ s'.pc p = tooBig ∧ Over size s)) ∧
      ∀ q, q ≠ p → s'.pc q = s.pc q ∨ s.pc q = .asleep ∧ s'.pc q = .woken := by
  have hother : ∀ c, s'.pc = update s.pc p c →
      ∀ q, q ≠ p → s'.pc q = s.pc q ∨ s.pc q = .asleep ∧ s'.pc q = .woken := by
    intro c hs q hq
    rw [hs]
    exact .inl (update_of_ne hq _ _)
  -- the points outside of `log_write`
  have hout : ∀ c, s'.pc = update s.pc p c → block c = none → c ≠ tooBig →
      block (s'.pc p) = none ∧ s'.pc p ≠ tooBig := by
    intro c hs hb hc
    rw [hs, update_self]
    exact ⟨hb, hc⟩
  unfold run at h
  generalize hpc : s.pc p = c at h
  cases c with
  | out | inOp | asleep | panic _ => cases h
  | beginAcquire | woken | endAcquire | commitAcquire =>
    have hs := pc_of_acquire h
    exact ⟨.inl (hout _ hs rfl nofun), hother _ hs⟩
  | logAcquire b =>
    have hs := pc_of_acquire h
    exact ⟨.inr (.inl ⟨b, rfl, by rw [hs, update_self]⟩), hother _ hs⟩
  | endWake k | commitWake k =>
    obtain ⟨hself, hrest⟩ := pc_of_wakeup h
    refine ⟨.inl ?_, hrest⟩
    rcases hself with hs | hs <;> rw [hs] <;> exact ⟨rfl, nofun⟩
  | logTest b =>
    dsimp only at h
    split at h
    · next hover =>
      cases h
      exact ⟨.inr (.inr ⟨b, rfl, s.goto_self p _, hover⟩), hother _ rfl⟩
    · split at h <;> cases h <;> exact ⟨.inl (hout _ rfl rfl (by decide)), hother _ rfl⟩
  | beginTest | endTest =>
    dsimp only at h
    split at h
    · cases h
      exact ⟨.inl (hout _ rfl rfl (by decide)), hother _ rfl⟩
    · split at h <;> cases h <;> exact ⟨.inl (hout _ rfl rfl (by decide)), hother _ rfl⟩
  | commitTest | writeLog _ | install _ =>
    dsimp only at h
    split at h <;> cases h <;> exact ⟨.inl (hout _ rfl rfl nofun), hother _ rfl⟩
  | sleepLocked | sleepUnlocked | writeHead | clear | clearHead | commitDone =>
    cases h
    exact ⟨.inl (hout _ rfl rfl nofun), hother _ rfl⟩

/-- Where a step can lead a process, as far as `log_write` is concerned. -/
theorem pc_cases (h : GroupCommit.exec size a s = some (e, s')) (q : Fin N) :
    s'.pc q = s.pc q ∨ (∀ m, s.pc q ≠ .panic m) ∧
      (block (s'.pc q) = none ∧ s'.pc q ≠ tooBig ∨
        (∃ b, a = .log_write q b ∧ s'.pc q = .logAcquire b) ∨
        (∃ b, s.pc q = .logAcquire b ∧ s'.pc q = .logTest b) ∨
        (∃ b, a = .run q ∧ s.pc q = .logTest b ∧ s'.pc q = tooBig ∧ Over size s)) := by
  cases a with
  | run p =>
    obtain ⟨hself, hother⟩ := pc_of_run h
    by_cases hqp : q = p
    · subst hqp
      refine .inr ⟨fun m hm => ?_, ?_⟩
      · simp [GroupCommit.exec, run, hm] at h
      · rcases hself with hout | ⟨b, hb⟩ | ⟨b, hb⟩
        · exact .inl hout
        · exact .inr (.inr (.inl ⟨b, hb⟩))
        · exact .inr (.inr (.inr ⟨b, rfl, hb⟩))
    · rcases hother q hqp with heq | ⟨hasleep, hwoken⟩
      · exact .inl heq
      · rw [hasleep, hwoken]
        exact .inr ⟨fun m hm => (by cases hm), .inl ⟨rfl, fun hm => by cases hm⟩⟩
  | begin_op p | log_write p b | end_op p | kill p =>
    obtain ⟨hpc, h⟩ := Option.ite_none_right_eq_some.mp h
    cases h
    by_cases hqp : q = p
    · subst hqp
      rw [goto_self, hpc]
      refine .inr ⟨fun m hm => (by cases hm), ?_⟩
      first
      | exact .inl ⟨rfl, fun hm => by cases hm⟩
      | exact .inr (.inl ⟨b, rfl, rfl⟩)
    · exact .inl (s.goto_ne _ hqp)

/-- The test at the head of `log_write` fails. -/
theorem run_over (hpc : s.pc p = .logTest b) (hover : Over size s)
    (h : run size p s = some (e, s')) : s'.pc p = tooBig := by
  unfold run at h
  unfold Over at hover
  simp only [hpc] at h
  rw [if_pos hover] at h
  cases h
  exact s.goto_self p _

end Points

/-! ### Steps -/

section Steps

variable {size : Nat} {s : State N} {g : GroupCommit.State N} {e : Event N} {a : Action N}
  {p : Fin N} {q : Fin N}

/-- At the head of `log_write`: a header that is over the limit is full, and has
    the block already. -/
theorem Space.over_iff (h : Space s) (hsize : LOGSIZE + 1 ≤ size) (hpc : s.g.pc p = .logTest b) :
    Over size s.g ↔ b ∈ s.g.lh ∧ s.g.lh.length = LOGSIZE := by
  have hfits := h.fits
  have hslack : s.slack p ≤ ∑ q, s.slack q := single_le_sum (fun _ _ => zero_le _) (mem_univ p)
  have hactive : (s.g.pc p).active = true := by rw [hpc]; rfl
  constructor
  · intro hover
    have hlen : s.g.lh.length = LOGSIZE := by
      unfold Over at hover
      omega
    refine ⟨?_, hlen⟩
    -- nothing is left of what the operation has reserved
    have hall : MAXOPBLOCKS ≤ (s.logged p).length := by
      rw [State.slack, if_pos hactive] at hslack
      omega
    have hcall := h.call p b (by rw [hpc]; rfl)
    unfold addBlock at hcall
    split at hcall
    · next hmem => exact h.sub p hactive b hmem
    · rw [List.length_append, List.length_singleton] at hcall
      omega
  · rintro ⟨-, hlen⟩
    exact .inl (le_of_eq hlen.symm)

/-- Only its own `begin_op` makes a process active. -/
theorem active_of_move (h : Move s.g e g) (hq : (g.pc q).active = true)
    (he : e ≠ .began q) : (s.g.pc q).active = true := by
  have keep : ∀ {p : Fin N} {c : PC}, c.active = (s.g.pc p).active →
      ((s.g.goto p c).pc q).active = true → (s.g.pc q).active = true := fun hc hq => by
    rwa [class_goto PC.active hc] at hq
  have other : ∀ {p : Fin N} {c : PC}, c.active = false →
      ((s.g.goto p c).pc q).active = true → (s.g.pc q).active = true := fun hc hq => by
    rcases class_goto_imp hq with hq | ⟨-, hq⟩
    · exact hq
    · rw [hc] at hq; cases hq
  cases h with
  | quiet p c e _ active | acquire p c _ _ _ active => exact keep active hq
  | log p b hpc | endPanic p hpc _ => exact keep (by rw [hpc]; rfl) hq
  | begin p hpc _ =>
    rcases class_goto_imp (f := PC.active) hq with hq | ⟨rfl, -⟩
    · exact hq
    · exact absurd rfl he
  | sleep | endLast | endMore | clear | done | wakeEnd => exact other rfl hq
  | wakeSkip p r c at_ _ => rcases at_ with ⟨-, rfl⟩ | ⟨-, rfl⟩ <;> exact other rfl hq
  | wakeOne p r c _ at_ _ =>
    have hr : ((s.g.goto r .woken).pc q).active = true := by
      rcases class_goto_imp hq with hq | ⟨-, hq⟩
      · exact hq
      · rcases at_ with ⟨-, rfl⟩ | ⟨-, rfl⟩ <;> cases hq
    exact other rfl hr

/-- A step that neither begins an operation nor logs a block. -/
theorem Space.keep (h : Space s) (hlh : g.lh = s.g.lh)
    (hactive : ∀ q, (g.pc q).active = true → (s.g.pc q).active = true) :
    g.lh.length + ∑ q, State.slack ⟨g, s.logged⟩ q ≤ LOGSIZE ∧
      ∀ q, (g.pc q).active = true → ∀ b ∈ s.logged q, b ∈ g.lh := by
  refine ⟨le_trans ?_ h.fits, fun q hq b hb => hlh ▸ h.sub q (hactive q hq) b hb⟩
  rw [hlh]
  refine Nat.add_le_add_left (sum_le_sum fun q _ => ?_) _
  unfold State.slack
  split
  · next hq => rw [if_pos (hactive q hq)]
  · exact Nat.zero_le _

/-- `begin_op` has found room for one more operation. -/
theorem fits_begin (hinv : GroupCommit.Inv s.g) (hpc : s.g.pc p = .beginTest) (hroom : ¬ s.g.Full) :
    s.g.lh.length + ∑ q, State.slack ⟨s.g.goto p .inOp, update s.logged p []⟩ q ≤ LOGSIZE := by
  have hcount : count (s.g.goto p .inOp).pc (fun c => c.active = true) =
      count s.g.pc (fun c => c.active = true) + 1 :=
    count_update_true (by rw [hpc]; decide) rfl
  -- each of the operations takes at most what is reserved for it
  have hsum : ∑ q, State.slack ⟨s.g.goto p .inOp, update s.logged p []⟩ q ≤
      count (s.g.goto p .inOp).pc (fun c => c.active = true) * MAXOPBLOCKS := by
    unfold Count.count
    rw [← sum_const_nat fun _ _ => rfl, sum_filter]
    refine sum_le_sum fun q _ => ?_
    unfold State.slack
    split
    · exact sub_le _ _
    · exact le_refl _
  have hlen : (s.g.lh.length : Int) + (s.g.outstanding + 1) * MAXOPBLOCKS ≤ LOGSIZE :=
    not_lt.mp fun hf => hroom (.inr hf)
  rw [hinv.outstanding] at hlen
  rw [hcount] at hsum
  have : s.g.lh.length + (count s.g.pc (fun c => c.active = true) + 1) * MAXOPBLOCKS ≤ LOGSIZE := by
    exact_mod_cast hlen
  omega

/-- A logged block takes from what is reserved for its operation, unless it is in
    the header already. -/
theorem Space.log (h : Space s) (hpc : s.g.pc p = .logTest b) :
    (addBlock s.g.lh b).length +
      ∑ q, State.slack ⟨s.g.goto p .inOp, update s.logged p (addBlock (s.logged p) b)⟩ q ≤
        LOGSIZE := by
  have hactive : (s.g.pc p).active = true := by rw [hpc]; rfl
  have hcall := h.call p b (by rw [hpc]; rfl)
  have hfits := h.fits
  have hother : ∀ q, q ≠ p →
      State.slack ⟨s.g.goto p .inOp, update s.logged p (addBlock (s.logged p) b)⟩ q =
      s.slack q := by
    intro q hq
    unfold State.slack
    dsimp only
    rw [State.goto_ne s.g _ hq, update_of_ne hq]
  have hself :
      State.slack ⟨s.g.goto p .inOp, update s.logged p (addBlock (s.logged p) b)⟩ p =
        MAXOPBLOCKS - (addBlock (s.logged p) b).length := by
    unfold State.slack
    dsimp only
    rw [State.goto_self, update_self]
    rfl
  have hold : s.slack p = MAXOPBLOCKS - (s.logged p).length := if_pos hactive
  have hrest : ∑ q ∈ univ.erase p,
      State.slack ⟨s.g.goto p .inOp, update s.logged p (addBlock (s.logged p) b)⟩ q =
        ∑ q ∈ univ.erase p, s.slack q :=
    sum_congr rfl fun q hq => hother q (ne_of_mem_erase hq)
  rw [← add_sum_erase _ _ (mem_univ p), hold] at hfits
  rw [← add_sum_erase _ _ (mem_univ p), hrest, hself]
  by_cases hlh : b ∈ s.g.lh
  · have hgrow : (s.logged p).length ≤ (addBlock (s.logged p) b).length := by
      unfold addBlock
      split
      · exact le_refl _
      · rw [List.length_append]; exact le_add_right _ _
    rw [addBlock, if_pos hlh]
    omega
  · have hnew : b ∉ s.logged p := fun hb => hlh (h.sub p hactive b hb)
    have hlen : (addBlock (s.logged p) b).length = (s.logged p).length + 1 := by
      rw [addBlock, if_neg hnew, List.length_append, List.length_singleton]
    rw [hlen] at hcall ⊢
    rw [addBlock, if_neg hlh, List.length_append, List.length_singleton]
    omega

theorem Space.move (h : Space s) (hinv : GroupCommit.Inv s.g) (hm : Move s.g e g) :
    g.lh.length + ∑ q, State.slack ⟨g, note s.logged e⟩ q ≤ LOGSIZE ∧
      ∀ q, (g.pc q).active = true → ∀ b ∈ note s.logged e q, b ∈ g.lh := by
  have hback : ∀ q, (g.pc q).active = true → e ≠ .began q → (s.g.pc q).active = true :=
    fun q => active_of_move hm
  cases hm with
  | quiet p c e _ _ _ _ _ _ _ event =>
    have hnote : note s.logged e = s.logged := by
      rcases event with ⟨rfl, -⟩ | ⟨-, rfl⟩ <;> rfl
    rw [hnote]
    refine h.keep rfl fun q hq => hback q hq ?_
    rcases event with ⟨rfl, -⟩ | ⟨-, rfl⟩ <;> exact nofun
  | acquire | sleep | endLast | endMore | endPanic | done | wakeSkip | wakeOne | wakeEnd =>
    exact h.keep rfl fun q hq => hback q hq nofun
  | clear p hpc =>
    -- nobody is in an operation during a commit
    have hzero : s.g.outstanding = 0 := hinv.alone (hinv.committing_of (by rw [hpc]; rfl))
    have hnone : ∀ q, (s.g.pc q).active = false := by
      intro q
      cases hq : (s.g.pc q).active with
      | false => rfl
      | true =>
        have := hinv.outstanding_pos hq
        omega
    have hnone' : ∀ q, ((s.g.goto p .clearHead).pc q).active = false := by
      intro q
      rw [class_goto PC.active (by rw [hpc]; rfl)]
      exact hnone q
    refine ⟨?_, fun q hq => ?_⟩
    · have hsum : ∑ q, State.slack ⟨{ s.g.goto p .clearHead with lh := [] }, s.logged⟩ q = 0 :=
        sum_eq_zero fun q _ => if_neg (by rw [hnone' q]; decide)
      show 0 + ∑ q, State.slack ⟨{ s.g.goto p .clearHead with lh := [] }, s.logged⟩ q ≤ LOGSIZE
      rw [hsum]
      exact zero_le _
    · rw [hnone' q] at hq
      cases hq
  | begin p hpc hroom =>
    refine ⟨fits_begin hinv hpc hroom, fun q hq b hb => ?_⟩
    change b ∈ update s.logged p [] q at hb
    by_cases hqp : q = p
    · rw [hqp, update_self] at hb
      cases hb
    · rw [update_of_ne hqp] at hb
      exact h.sub q (hback q hq fun he => hqp (Event.began.inj he).symm) b hb
  | log p b hpc =>
    refine ⟨h.log hpc, fun q hq b' hb' => ?_⟩
    change b' ∈ update s.logged p (addBlock (s.logged p) b) q at hb'
    refine mem_addBlock.mpr ?_
    by_cases hqp : q = p
    · rw [hqp, update_self] at hb'
      exact (mem_addBlock.mp hb').imp_right (h.sub p (by rw [hpc]; rfl) b')
    · rw [update_of_ne hqp] at hb'
      exact .inr (h.sub q (hback q hq nofun) b' hb')

/-- The record changes only for a process that steps back into its operation. -/
theorem note_of_block (hm : Move s.g e g) (hb : block (g.pc q) = some b) :
    note s.logged e q = s.logged q := by
  cases hm with
  | quiet p c e _ _ _ _ _ _ _ event => rcases event with ⟨rfl, -⟩ | ⟨-, rfl⟩ <;> rfl
  | acquire | sleep | endLast | endMore | endPanic | clear | done | wakeSkip | wakeOne | wakeEnd =>
    rfl
  | begin p hpc _ | log p _ hpc =>
    have hqp : q ≠ p := by
      rintro rfl
      change block ((s.g.goto q .inOp).pc q) = some b at hb
      rw [goto_self] at hb
      cases hb
    exact update_of_ne hqp _ _

theorem Space.step (h : Space s) (hinv : GroupCommit.Inv s.g) (hallowed : allowed s a = true)
    (hex : GroupCommit.exec size a s.g = some (e, g)) : Space ⟨g, note s.logged e⟩ := by
  have hm := move_of_exec hex
  obtain ⟨hfits, hsub⟩ := h.move hinv hm
  refine ⟨hfits, hsub, fun q b hb => ?_⟩
  dsimp only at hb ⊢
  rw [note_of_block hm hb]
  rcases pc_cases hex q
    with heq | ⟨-, ⟨hnone, -⟩ | ⟨b', rfl, hq⟩ | ⟨b', hold, hq⟩ | ⟨b', -, -, hq, -⟩⟩
  · exact h.call q b (heq ▸ hb)
  · rw [hnone] at hb
    cases hb
  · rw [hq] at hb
    cases hb
    exact of_decide_eq_true hallowed
  · rw [hq] at hb
    obtain rfl := Option.some.inj hb
    exact h.call q b' (by rw [hold]; rfl)
  · rw [hq] at hb
    cases hb

end Steps

/-- What holds along every run. -/
structure Inv (tr : List (Label N)) (s : State N) : Prop where
  log : GroupCommit.Inv s.g
  space : Space s
  panic : (∃ p, s.g.pc p = tooBig) ↔ ∃ b, .relog b ∈ tr

/-- A step is labelled `relog` exactly when it is the panic. -/
theorem label_eq_relog {s : GroupCommit.State N} {e : Event N} (h : label s a e = .relog b) :
    ∃ p, a = .run p ∧ s.pc p = .logTest b ∧ b ∈ s.lh ∧ s.lh.length = LOGSIZE := by
  unfold label at h
  split at h
  · next p =>
    split at h
    · next b' hpc =>
      split at h
      · next hc =>
        obtain rfl := Label.relog.inj h
        exact ⟨p, rfl, hpc, hc⟩
      · cases h
    · cases h
  · cases h

theorem Inv.step (hsize : LOGSIZE + 1 ≤ size) {s s' : State N} {l : Label N} (h : Inv tr s)
    (hex : exec size a s = some (l, s')) : Inv (tr ++ [l]) s' := by
  unfold exec at hex
  split at hex
  case isFalse => cases hex
  case isTrue hallowed =>
  obtain ⟨⟨e, g⟩, hg, heq⟩ := Option.map_eq_some_iff.mp hex
  cases heq
  dsimp only at *
  refine ⟨h.log.move (move_of_exec hg), h.space.step h.log hallowed hg, ?_⟩
  constructor
  · rintro ⟨q, hq⟩
    rcases pc_cases hg q
      with hsame | ⟨-, ⟨-, hne⟩ | ⟨b, -, hb⟩ | ⟨b, -, hb⟩ | ⟨b, rfl, hb, -, hover⟩⟩
    · obtain ⟨b, hb⟩ := h.panic.mp ⟨q, hsame ▸ hq⟩
      exact ⟨b, List.mem_append_left _ hb⟩
    · exact absurd hq hne
    · rw [hb] at hq
      cases hq
    · rw [hb] at hq
      cases hq
    · refine ⟨b, List.mem_append_right _ (List.mem_singleton.mpr ?_)⟩
      unfold label
      dsimp only
      rw [hb]
      exact (if_pos ((h.space.over_iff hsize hb).mp hover)).symm
  · rintro ⟨b, hb⟩
    rcases List.mem_append.mp hb with hb | hb
    · obtain ⟨q, hq⟩ := h.panic.mpr ⟨b, hb⟩
      rcases pc_cases hg q with hsame | ⟨hne, -⟩
      · exact ⟨q, hsame.trans hq⟩
      · exact absurd hq (hne _)
    · obtain ⟨p, rfl, hpc, -, hlen⟩ := label_eq_relog (List.mem_singleton.mp hb).symm
      exact ⟨p, run_over hpc (.inl (le_of_eq hlen.symm)) hg⟩

theorem inv_trace (hsize : LOGSIZE + 1 ≤ size) {s : State N}
    (h : Trace (system N size) tr s) : Inv tr s := by
  refine h.invariant ?_ ?_
  · rintro s rfl
    refine ⟨GroupCommit.inv_init, space_init, ?_, nofun⟩
    rintro ⟨p, hp⟩
    cases hp
  · rintro tr s l s' hinv ⟨a, hex⟩
    exact hinv.step hsize hex

/-! ## 3. Result -/

/-- **Log space.**  The header never outgrows the log, and `log_write` panics
    exactly in the runs in which a block of a full header is logged once more. -/
theorem log_space {size : Nat} (hsize : LOGSIZE + 1 ≤ size) {tr : List (Label N)} {s : State N}
    (h : Trace (system N size) tr s) :
    s.g.lh.length ≤ LOGSIZE ∧
      ((∃ p, s.g.pc p = .panic "too big a transaction") ↔ ∃ b, .relog b ∈ tr) := by
  have hinv := inv_trace hsize h
  exact ⟨le_trans (le_add_right _ _) hinv.space.fits, hinv.panic⟩

/-- `begin_op` of `p`. -/
def beginOf (p : Fin N) : List (Action N) := [.begin_op p, .run p, .run p]

/-- `log_write` of block `b` by `p`. -/
def logOf (p : Fin N) (b : Nat) : List (Action N) := [.log_write p b, .run p, .run p]

/-! Three processes. -/

def first : Fin 3 := ⟨0, by decide⟩

def second : Fin 3 := ⟨1, by decide⟩

def third : Fin 3 := ⟨2, by decide⟩

/-- Three operations log ten blocks each. -/
def fullLog : List (Action 3) :=
  beginOf first ++ beginOf second ++ beginOf third ++
    ((List.range 10).flatMap fun b => logOf first b) ++
    ((List.range 10).flatMap fun b => logOf second (10 + b)) ++
    ((List.range 10).flatMap fun b => logOf third (20 + b))

theorem log_space_fullLog :
    ∃ tr s, Trace (system 3 31) tr s ∧ s.g.lh.length = 30 ∧ LOGSIZE + 1 ≤ 31 ∧
      s.g.lh.length ≤ LOGSIZE ∧
      ((∃ p, s.g.pc p = .panic "too big a transaction") ↔ ∃ b, .relog b ∈ tr) := by
  have hrun : (replay (exec 31) fullLog init).map (fun r => r.2.g.lh.length) = some 30 := by
    decide +kernel
  obtain ⟨⟨tr, s⟩, hrep, hs⟩ := Option.map_eq_some_iff.mp hrun
  have htrace : Trace (system 3 31) tr s := trace_of_replay rfl hrep
  exact ⟨tr, s, htrace, hs, by decide, log_space (by decide) htrace⟩

/-- Then the first operation logs its first block once more. -/
theorem relogged_block_too_big :
    ∃ tr s, Trace (system 3 31) tr s ∧ s.g.pc first = .panic "too big a transaction" ∧
      s.logged first = [0, 1, 2, 3, 4, 5, 6, 7, 8, 9] := by
  have hrun : (replay (exec 31) (fullLog ++ logOf first 0) init).map
    (fun r => (r.2.g.pc first, r.2.logged first)) =
      some (.panic "too big a transaction", [0, 1, 2, 3, 4, 5, 6, 7, 8, 9]) := by
    decide +kernel
  obtain ⟨⟨tr, s⟩, hrep, hs⟩ := Option.map_eq_some_iff.mp hrun
  obtain ⟨hpc, hlogged⟩ := Prod.mk.inj hs
  exact ⟨tr, s, trace_of_replay rfl hrep, hpc, hlogged⟩

end NoviceKernel.LogSpace
