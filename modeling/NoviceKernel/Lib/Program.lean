import Mathlib.Logic.Function.Basic
import Mathlib.Tactic.Common
import NoviceKernel.Lib.Hoare
import NoviceKernel.Lib.TransitionSystem

/-! # Programs over commands

    A program executes commands one after the other; what it does next depends
    on what the commands returned.  The same program can be run in two ways.

    * `run`: alone, from its first command to its last.
    * `Machine`: by one of several processes, whose commands interleave in any
      order; a command is one step.

    `Safe T x r Q` is a Hoare triple for both.  It speaks only about the
    *resources* `r` of the process that runs `x` and about what the commands do
    to them (`T`), so that no step of another process disturbs it.  How
    resources and the shared state belong together is said once, by an
    invariant over all processes (`Sound`). -/

namespace Program

open Hoare TransitionSystem Function

/-- Commands, and the type of what each of them returns. -/
structure Sig where
  Cmd : Type
  Ret : Cmd → Type

/-- Programs that return a value of type `α`. -/
inductive Prog (S : Sig) (α : Type) where
  | ret (a : α)
  | cmd (c : S.Cmd) (k : S.Ret c → Prog S α)

variable {S : Sig} {α β ε σ P ρ τ L : Type}

namespace Prog

/-- First `x`, then `f` on what it returned. -/
protected def bind : Prog S α → (α → Prog S β) → Prog S β
  | .ret a, f => f a
  | .cmd c k, f => .cmd c fun b => (k b).bind f

instance : Monad (Prog S) where
  pure := .ret
  bind := Prog.bind

/-- The program of one command. -/
def call (c : S.Cmd) : Prog S (S.Ret c) := .cmd c .ret

/-- Execute the program alone. -/
def run (exec : (c : S.Cmd) → EStateM ε σ (S.Ret c)) : Prog S α → EStateM ε σ α
  | .ret a => pure a
  | .cmd c k => exec c >>= fun b => (k b).run exec

end Prog

/-! ## Triples -/

/-- What a command needs of the resources of the process that executes it, and
    what becomes of them. -/
structure Spec (S : Sig) (ρ : Type) where
  pre : S.Cmd → ρ → Prop
  post : (c : S.Cmd) → ρ → S.Ret c → ρ → Prop
  /-- The process has been started and has not ended. -/
  live : ρ → Prop
  pre_live : ∀ {c r}, pre c r → live r

/-- Started with the resources `r`, the program never executes a command whose
    precondition fails, and `Q` holds of what it returns and leaves. -/
def Safe (T : Spec S ρ) : Prog S α → ρ → (α → ρ → Prop) → Prop
  | .ret a, r, Q => Q a r
  | .cmd c k, r, Q => T.pre c r ∧ ∀ b r', T.post c r b r' → Safe T (k b) r' Q

variable {a : α} {R : β → ρ → Prop} {c : S.Cmd}

namespace Safe

variable {T : Spec S ρ} {x : Prog S α} {f : α → Prog S β} {r r' : ρ} {Q Q' : α → ρ → Prop}

theorem pure (h : Q a r) : Safe T (pure a) r Q := h

/-- **Consequence**. -/
theorem mono (h : Safe T x r Q) (hQ : ∀ a r, Q a r → Q' a r) : Safe T x r Q' := by
  induction x generalizing r with
  | ret a => exact hQ _ _ h
  | cmd c k ih => exact ⟨h.1, fun b r' hp => ih b (h.2 b r' hp)⟩

/-- **Sequencing**. -/
theorem bind (h : Safe T x r fun a r' => Safe T (f a) r' R) : Safe T (x >>= f) r R := by
  induction x generalizing r with
  | ret a => exact h
  | cmd c k ih => exact ⟨h.1, fun b r' hp => ih b (h.2 b r' hp)⟩

/-- **Sequencing**, with the specification of the first part. -/
theorem seq (h : Safe T x r Q) (hf : ∀ a r', Q a r' → Safe T (f a) r' R) : Safe T (x >>= f) r R :=
  bind (h.mono hf)

/-- **Sequencing**, if it is known which resources the first part leaves. -/
theorem next {g : α → ρ} (h : Safe T x r fun a r' => r' = g a)
    (hf : ∀ a, Safe T (f a) (g a) R) : Safe T (x >>= f) r R :=
  h.seq fun a _ he => he ▸ hf a

/-- One command. -/
theorem call {Q : S.Ret c → ρ → Prop} (hpre : T.pre c r)
    (hQ : ∀ b r', T.post c r b r' → Q b r') : Safe T (.call c) r Q :=
  ⟨hpre, hQ⟩

/-- One command and the rest of the program. -/
theorem step {f : S.Ret c → Prog S β} (hpre : T.pre c r)
    (hf : ∀ b r', T.post c r b r' → Safe T (f b) r' R) : Safe T (.call c >>= f) r R :=
  ⟨hpre, hf⟩

/-- The same, if it is known which resources the command leaves. -/
theorem stepTo {f : S.Ret c → Prog S β} {g : S.Ret c → ρ} (hpre : T.pre c r)
    (hpost : ∀ b r', T.post c r b r' → r' = g b) (hf : ∀ b, Safe T (f b) (g b) R) :
    Safe T (.call c >>= f) r R :=
  step hpre fun b r' hp => hpost b r' hp ▸ hf b

theorem ite {c : Prop} [Decidable c] {y : Prog S α} (hx : c → Safe T x r Q)
    (hy : ¬ c → Safe T y r Q) : Safe T (if c then x else y) r Q := by
  split
  · next hc => exact hx hc
  · next hc => exact hy hc

end Safe

/-! ## Soundness -/

/-- The processes other than `p` keep their resources, except that new ones may
    have been started. -/
def Others (T : Spec S ρ) (idle : ρ → Prop) (p : P) (R R' : P → ρ) : Prop :=
  ∀ q, q ≠ p → R' q = R q ∨ ¬ T.live (R q) ∧ idle (R' q)

/-- The invariant `holds` between the shared state and the resources of all
    processes is kept by every command that is executed with its precondition,
    in states where `ok` allows it. -/
structure Sound [DecidableEq P] (T : Spec S ρ) (exec : P → (c : S.Cmd) → EStateM ε σ (S.Ret c))
    (ok : P → S.Cmd → σ → Prop) (holds : σ → (P → ρ) → Prop) (idle : ρ → Prop) : Prop where
  cmd : ∀ {p c s R}, holds s R → T.pre c (R p) → ok p c s →
    wp (exec p c) (fun b s' => ∃ R', holds s' R' ∧ T.post c (R p) b (R' p) ∧ Others T idle p R R')
      (fun _ _ => True) s

variable {x : Prog S α} {p : P} {s : σ}

/-- A safe program that runs alone, whatever the others are doing. -/
theorem Sound.run [DecidableEq P] {T : Spec S ρ} {exec : P → (c : S.Cmd) → EStateM ε σ (S.Ret c)}
    {ok : P → S.Cmd → σ → Prop} {holds : σ → (P → ρ) → Prop} {idle : ρ → Prop}
    (hs : Sound T exec ok holds idle) {R : P → ρ} {Q : α → ρ → Prop} (hok : ∀ p c s, ok p c s)
    (h : holds s R) (hx : Safe T x (R p) Q) :
    wp (x.run (exec p)) (fun a s' => ∃ R', holds s' R' ∧ Q a (R' p)) (fun _ _ => True) s := by
  induction x generalizing s R with
  | ret a => exact ⟨R, h, hx⟩
  | cmd c k ih =>
    rw [Prog.run, wp_bind]
    refine (hs.cmd h hx.1 (hok p c s)).mono ?_ fun _ _ _ => trivial
    rintro b s' ⟨R', hR', hpost, -⟩
    exact ih b hR' (hx.2 b _ hpost)

section Others

variable {T : Spec S ρ} {idle : ρ → Prop}

theorem Others.refl (p : P) (R : P → ρ) : Others T idle p R R := fun _ _ => .inl rfl

theorem Others.update [DecidableEq P] (p : P) (R : P → ρ) (r : ρ) :
    Others T idle p R (update R p r) :=
  fun _ hq => .inl (update_of_ne hq _ _)

/-- The process outside of calls has idle resources, and a call in progress is
    safe. -/
def Going (T : Spec S ρ) (idle : ρ → Prop) (r : ρ) : Option (Prog S α) → Prop
  | none => idle r
  | some x => (∃ c k, x = .cmd c k) ∧ Safe T x r fun _ r => idle r

/-- Commands of others do not disturb a call. -/
theorem Others.going {q : P} {R R' : P → ρ} {x : Option (Prog S α)} (h : Others T idle p R R')
    (hq : q ≠ p) (hx : Going T idle (R q) x) : Going T idle (R' q) x := by
  rcases h q hq with heq | ⟨hdead, hidle⟩
  · rwa [heq]
  · cases x with
    | none => exact hidle
    | some x =>
      -- a process that executes a call is live
      obtain ⟨⟨c, k, rfl⟩, hx⟩ := hx
      exact absurd (T.pre_live hx.1) hdead

end Others

section Run

variable [DecidableEq P] {T : Spec S ρ} {exec : P → (c : S.Cmd) → EStateM ε σ (S.Ret c)}
  {ok : P → S.Cmd → σ → Prop} {holds : σ → (P → ρ) → Prop} {idle : ρ → Prop}

/-! ## Interleaving -/

/-- The shared state, and for every process the rest of the call that it
    executes, if it executes one. -/
structure Machine (S : Sig) (σ P α : Type) where
  shared : σ
  prog : P → Option (Prog S α)

/-- The rest of a call; none if it has returned. -/
def rest : Prog S α → Option (Prog S α)
  | .ret _ => none
  | x => some x

/-- What happened in a step: a process started a call, or executed a command. -/
inductive Event (S : Sig) (P L : Type) where
  | call (p : P) (l : L)
  | cmd (p : P) (c : S.Cmd)

/-- What can happen next. -/
inductive Act (P L : Type) where
  | call (p : P) (l : L)
  | step (p : P)

/-- Calls are started by processes that are ready and execute none; a command
    that does not return, because it waits or because it stops the machine, is
    not a step. -/
def Machine.act (exec : P → (c : S.Cmd) → EStateM ε σ (S.Ret c)) (ready : σ → P → Bool)
    (code : L → Prog S α) : Act P L → Machine S σ P α → Option (Event S P L × Machine S σ P α)
  | .call p l, m =>
    if (m.prog p).isNone && ready m.shared p then
      some (.call p l, { m with prog := update m.prog p (rest (code l)) })
    else none
  | .step p, m =>
    match m.prog p with
    | some (.cmd c k) =>
      match exec p c m.shared with
      | .ok b s => some (.cmd p c, ⟨s, update m.prog p (rest (k b))⟩)
      | .error _ _ => none
    | _ => none

/-- All interleavings. -/
def machine (init : σ → Prop) (exec : P → (c : S.Cmd) → EStateM ε σ (S.Ret c))
    (ready : σ → P → Bool) (code : L → Prog S α) : System (Machine S σ P α) (Event S P L) :=
  ofExec (fun m => init m.shared ∧ ∀ p, m.prog p = none) (Machine.act exec ready code)

/-- The runs all of whose steps meet a condition. -/
def restrict {σ L : Type} (sys : System σ L) (cond : σ → L → Prop) : System σ L where
  init := sys.init
  step := fun s l s' => cond s l ∧ sys.step s l s'

/-- Between the steps of an interleaving: the invariant holds for some resources
    with which all calls in progress are safe. -/
def Machine.Inv (T : Spec S ρ) (holds : σ → (P → ρ) → Prop) (idle : ρ → Prop)
    (m : Machine S σ P α) (R : P → ρ) : Prop :=
  holds m.shared R ∧ ∀ p, Going T idle (R p) (m.prog p)

variable {m m' : Machine S σ P α} {R : P → ρ} {ready : σ → P → Bool} {code : L → Prog S α}
  {init : σ → Prop}

open Machine

/-- The step behind a command. -/
theorem Machine.step_cmd (h : (machine init exec ready code).step m (.cmd p c) m') :
    ∃ k b, m.prog p = some (.cmd c k) ∧ exec p c m.shared = .ok b m'.shared := by
  obtain ⟨a, ha⟩ := h
  cases a with
  | call q l =>
    rw [act] at ha
    split at ha
    · cases (Prod.mk.inj (Option.some.inj ha)).1
    · cases ha
  | step q =>
    rw [act] at ha
    split at ha
    · next c' k hq =>
      split at ha
      · next b s' hex =>
        obtain ⟨he, rfl⟩ := Prod.mk.inj (Option.some.inj ha)
        obtain ⟨rfl, rfl⟩ := Event.cmd.inj he
        exact ⟨k, b, hq, hex⟩
      · cases ha
    · cases ha

/-- A safe call goes on, or ends with idle resources. -/
theorem going_rest {r : ρ} (hx : Safe T x r fun _ r => idle r) : Going T idle r (rest x) := by
  cases x with
  | ret a => exact hx
  | cmd c k => exact ⟨⟨c, k, rfl⟩, hx⟩

/-- One process makes a step; the others are undisturbed. -/
theorem going_update {R' : P → ρ} (hx : Safe T x (R' p) fun _ r => idle r)
    (hoth : ∀ q, q ≠ p → Going T idle (R' q) (m.prog q)) (q : P) :
    Going T idle (R' q) (update m.prog p (rest x) q) := by
  by_cases hq : q = p
  · rw [hq, update_self]
    exact going_rest hx
  · rw [update_of_ne hq]
    exact hoth q hq

theorem Machine.Inv.step (hs : Sound T exec ok holds idle) (h : m.Inv T holds idle R)
    {e : Event S P L} {a : Act P L}
    (hcode : ∀ p l, e = .call p l → ready m.shared p = true → idle (R p) →
      Safe T (code l) (R p) fun _ r => idle r) (hok : ∀ p c, e = .cmd p c → ok p c m.shared)
    (hstep : act exec ready code a m = some (e, m')) : ∃ R', m'.Inv T holds idle R' := by
  obtain ⟨hholds, hprog⟩ := h
  cases a with
  | call p l =>
    rw [act] at hstep
    split at hstep
    · next hc =>
      rw [Bool.and_eq_true, Option.isNone_iff_eq_none] at hc
      cases hstep
      have hidle := hprog p
      rw [hc.1] at hidle
      exact ⟨R, hholds, going_update (hcode p l rfl hc.2 hidle) fun q _ => hprog q⟩
    · cases hstep
  | step p =>
    rw [act] at hstep
    split at hstep
    · next c k hp =>
      split at hstep
      · next b s' hex =>
        cases hstep
        have hsafe := hprog p
        rw [hp] at hsafe
        obtain ⟨-, hpre, hk⟩ := hsafe
        obtain ⟨R', hR', hpost, hoth⟩ := (hs.cmd hholds hpre (hok p c rfl)).of_ok hex
        exact ⟨R', hR', going_update (hk b _ hpost) fun q hq => hoth.going hq (hprog q)⟩
      · cases hstep
    · cases hstep

/-- **Safe calls in any interleaving**, whose steps meet a condition. -/
theorem Machine.reachable_inv {cond : Machine S σ P α → Event S P L → Prop}
    (hs : Sound T exec ok holds idle)
    (hcode : ∀ m R p l, cond m (.call p l) → holds m.shared R → ready m.shared p = true →
      idle (R p) → Safe T (code l) (R p) fun _ r => idle r)
    (hok : ∀ m p c, cond m (.cmd p c) → ok p c m.shared)
    (hinit : ∀ s, init s → ∃ R, holds s R ∧ ∀ p, idle (R p))
    (h : Reachable (restrict (machine init exec ready code) cond) m) :
    ∃ R, m.Inv T holds idle R := by
  refine Reachable.invariant (I := fun m => ∃ R, m.Inv T holds idle R) h ?_ ?_
  · rintro m ⟨h0, hnone⟩
    obtain ⟨R, hR, hidle⟩ := hinit _ h0
    refine ⟨R, hR, fun p => ?_⟩
    rw [hnone p]
    exact hidle p
  · rintro m e m' ⟨R, hinv⟩ ⟨hcond, a, hstep⟩
    refine hinv.step hs ?_ ?_ hstep
    · rintro p l rfl
      exact hcode m R p l hcond hinv.1
    · rintro p c rfl
      exact hok m p c hcond

/-! ## Conditions on commands -/

/-- A condition on the commands that are executed. -/
def onCmds (ok : P → S.Cmd → σ → Bool) (m : Machine S σ P α) : Event S P L → Prop
  | .call _ _ => True
  | .cmd p c => ok p c m.shared = true

/-- Commands that stop with `e` if they do not meet the condition. -/
def guarded (ok : P → S.Cmd → σ → Bool) (e : ε) (exec : P → (c : S.Cmd) → EStateM ε σ (S.Ret c))
    (p : P) (c : S.Cmd) : EStateM ε σ (S.Ret c) :=
  fun s => if ok p c s then exec p c s else .error e s

/-- Runs with guarded commands are the runs all of whose commands meet the
    condition. -/
theorem Machine.reachable_guarded {ok : P → S.Cmd → σ → Bool} {e : ε}
    (h : Reachable (machine init (guarded ok e exec) ready code) m) :
    Reachable (restrict (machine init exec ready code) (onCmds ok)) m := by
  refine h.invariant (I := Reachable (restrict (machine init exec ready code) (onCmds ok))) ?_ ?_
  · exact fun m hm => .of_init hm
  · rintro m l m' ih ⟨a, ha⟩
    cases a with
    | call p c =>
      rw [act] at ha
      split at ha
      · next hc =>
        refine ih.step (l := l) ⟨?_, .call p c, by rw [act, if_pos hc]; exact ha⟩
        obtain ⟨rfl, -⟩ := Prod.mk.inj (Option.some.inj ha)
        trivial
      · cases ha
    | step p =>
      rw [act] at ha
      split at ha
      · next c k hp =>
        by_cases hok : ok p c m.shared = true
        · rw [guarded, if_pos hok] at ha
          refine ih.step (l := l) ⟨?_, .step p, by rw [act, hp]; exact ha⟩
          split at ha
          · obtain ⟨rfl, -⟩ := Prod.mk.inj (Option.some.inj ha)
            exact hok
          · cases ha
        · rw [guarded, if_neg hok] at ha
          cases ha
      · cases ha

/-! ## One call at a time -/

/-- A call that a process has begun and that no other process disturbs. -/
theorem Machine.reachable_rest {s' : σ} {prog : P → Option (Prog S α)}
    (h : Reachable (machine init exec ready code) ⟨s, update prog p (rest x)⟩)
    (hx : x.run (exec p) s = .ok a s') :
    Reachable (machine init exec ready code) ⟨s', update prog p none⟩ := by
  induction x generalizing s with
  | ret b =>
    obtain ⟨-, rfl⟩ := EStateM.Result.ok.inj hx
    exact h
  | cmd c k ih =>
    rw [Prog.run, bind, EStateM.instMonad] at hx
    dsimp only [EStateM.bind] at hx
    split at hx
    · next b s1 hc =>
      refine ih b (h.step (l := .cmd p c) ⟨.step p, ?_⟩) hx
      rw [act]
      dsimp only
      rw [update_self]
      dsimp only [rest]
      rw [hc]
      dsimp only
      rw [update_idem]
    · cases hx

/-- **A whole call** while no other call is in progress. -/
theorem Machine.reachable_call {l : L} {s' : σ}
    (h : Reachable (machine init exec ready code) ⟨s, fun _ => none⟩) (hready : ready s p = true)
    (hrun : (code l).run (exec p) s = .ok a s') :
    Reachable (machine init exec ready code) ⟨s', fun _ => none⟩ := by
  have hcall : Reachable (machine init exec ready code)
      ⟨s, update (fun _ => none) p (rest (code l))⟩ := by
    refine h.step (l := .call p l) ⟨.call p l, ?_⟩
    rw [act, hready]
    rfl
  have := reachable_rest hcall hrun
  rwa [update_eq_self_iff.mpr rfl] at this

end Run

end Program
