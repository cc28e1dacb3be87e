import Mathlib.Data.List.Induction
import Mathlib.Tactic.Common

/-! # Labelled transition systems

    A system is a set of initial states and a labelled step relation.

    * `Trace`: a finite run, with the labels of its steps, oldest first.
    * **Invariants**: what holds initially and is kept by every step holds at
      the end of every run; the same for facts about the labels so far.
    * **Guarded step functions**: a system given by an executable function, and
      the replay of a list of its actions. -/

namespace TransitionSystem

open List

/-- Initial states and labelled steps. -/
structure System (σ L : Type) where
  init : σ → Prop
  step : σ → L → σ → Prop

variable {σ L : Type} {sys : System σ L}

/-- `Trace sys tr s`: some run of `sys` with labels `tr` ends in `s`. -/
inductive Trace (sys : System σ L) : List L → σ → Prop where
  | init {s : σ} : sys.init s → Trace sys [] s
  | step {tr : List L} {s s' : σ} {l : L} : Trace sys tr s → sys.step s l s' →
      Trace sys (tr ++ [l]) s'

/-- The states at the end of some run. -/
def Reachable (sys : System σ L) (s : σ) : Prop := ∃ tr, Trace sys tr s

variable {tr : List L} {s : σ} {I : σ → Prop}

/-! ## Invariants -/

/-- **Invariant rule**, for facts about the labels so far and the state. -/
theorem Trace.invariant {I : List L → σ → Prop} (h : Trace sys tr s)
    (hinit : ∀ s, sys.init s → I [] s)
    (hstep : ∀ tr s l s', I tr s → sys.step s l s' → I (tr ++ [l]) s') : I tr s := by
  induction h with
  | init h0 => exact hinit _ h0
  | step _ hs ih => exact hstep _ _ _ _ ih hs

/-- **Invariant rule** for states. -/
theorem Reachable.invariant (h : Reachable sys s)
    (hinit : ∀ s, sys.init s → I s) (hstep : ∀ s l s', I s → sys.step s l s' → I s') : I s := by
  obtain ⟨tr, htr⟩ := h
  exact htr.invariant (I := fun _ s => I s) hinit (fun _ => hstep)

theorem Reachable.of_init (h : sys.init s) : Reachable sys s := ⟨[], .init h⟩

variable {s' : σ} {l : L}

theorem Reachable.step (h : Reachable sys s) (hs : sys.step s l s') : Reachable sys s' := by
  obtain ⟨tr, htr⟩ := h
  exact ⟨_, htr.step hs⟩

/-- The last step of a run. -/
theorem Trace.last_step (h : Trace sys (tr ++ [l]) s) :
    ∃ s₀, Trace sys tr s₀ ∧ sys.step s₀ l s := by
  generalize hw : tr ++ [l] = w at h
  cases h with
  | init _ => simp at hw
  | step h' hs =>
    obtain ⟨rfl, hl⟩ := append_inj' hw rfl
    obtain rfl : l = _ := by simpa using hl
    exact ⟨_, h', hs⟩

variable {tr' : List L}

/-- A trace read from the left: the run up to any point is a run. -/
theorem Trace.of_append (h : Trace sys (tr ++ tr') s) : ∃ s₀, Trace sys tr s₀ := by
  induction tr' using reverseRecOn generalizing s with
  | nil => exact ⟨s, by rwa [append_nil] at h⟩
  | append_singleton tr' l ih =>
    rw [← append_assoc] at h
    obtain ⟨s₀, h0, -⟩ := h.last_step
    exact ih h0

/-- The step behind a label in the middle of a trace. -/
theorem Trace.step_of_append (h : Trace sys (tr ++ l :: tr') s) :
    ∃ s₀ s₁, Trace sys tr s₀ ∧ sys.step s₀ l s₁ := by
  rw [← singleton_append, ← append_assoc] at h
  obtain ⟨s₁, h1⟩ := h.of_append
  obtain ⟨s₀, h0, hs⟩ := h1.last_step
  exact ⟨s₀, s₁, h0, hs⟩

/-! ## Paths -/

/-- `Path sys s tr s'`: steps with labels `tr` lead from `s` to `s'`. -/
def Path (sys : System σ L) (s : σ) : List L → σ → Prop := Trace { sys with init := fun x => x = s }

/-- What holds at the start and is kept by every step whose label is allowed
    holds at the end. -/
theorem Path.invariant {ok : L → Prop} (h : Path sys s tr s') (hok : ∀ l ∈ tr, ok l) (hs : I s)
    (hstep : ∀ s l s', I s → ok l → sys.step s l s' → I s') : I s' := by
  have hI : (∀ l ∈ tr, ok l) → I s' := by
    refine Trace.invariant (I := fun tr x => (∀ l ∈ tr, ok l) → I x) h ?_ ?_
    · intro x hx _
      subst hx
      exact hs
    · intro tr x l x' ih hst hall
      have hl : ok l := hall l (mem_append_right _ (mem_singleton_self l))
      exact hstep x l x' (ih fun m hm => hall m (mem_append_left _ hm)) hl hst
  exact hI hok

/-- A run can be cut at any point. -/
theorem Trace.split (h : Trace sys (tr ++ tr') s) : ∃ s₀, Trace sys tr s₀ ∧ Path sys s₀ tr' s := by
  induction tr' using reverseRecOn generalizing s with
  | nil =>
    rw [append_nil] at h
    exact ⟨s, h, .init rfl⟩
  | append_singleton tr' l ih =>
    rw [← append_assoc] at h
    obtain ⟨s1, h1, hs⟩ := h.last_step
    obtain ⟨s₀, h0, hp⟩ := ih h1
    exact ⟨s₀, h0, .step hp hs⟩

theorem Path.split (h : Path sys s (tr ++ tr') s') : ∃ s₁, Path sys s tr s₁ ∧ Path sys s₁ tr' s' :=
  Trace.split h

theorem Path.eq_of_nil (h : Path sys s [] s') : s' = s := by
  generalize hnil : ([] : List L) = w at h
  cases h with
  | init h => exact h
  | step _ _ => simp at hnil

/-- The first step of a path. -/
theorem Path.head (h : Path sys s (l :: tr) s') : ∃ s₁, sys.step s l s₁ ∧ Path sys s₁ tr s' := by
  have h : Path sys s ([l] ++ tr) s' := h
  obtain ⟨s₁, h1, hp⟩ := h.split
  have h1 : Trace _ ([] ++ [l]) s₁ := h1
  obtain ⟨s0, h0, hs⟩ := h1.last_step
  obtain rfl := Path.eq_of_nil h0
  exact ⟨s₁, hs, hp⟩

/-! ## Guarded step functions -/

/-- The system of a guarded step function: an action that is enabled gives a
    label and the next state. -/
def ofExec {A : Type} (init : σ → Prop) (exec : A → σ → Option (L × σ)) : System σ L where
  init := init
  step := fun s l s' => ∃ a, exec a s = some (l, s')

/-- Take the actions one after the other; `none` if one of them is not enabled. -/
def replay {A : Type} (exec : A → σ → Option (L × σ)) : List A → σ → Option (List L × σ)
  | [], s => some ([], s)
  | a :: as, s =>
    match exec a s with
    | none => none
    | some (l, s') => (replay exec as s').map fun r => (l :: r.1, r.2)

variable {A : Type} {init : σ → Prop} {as : List A} {exec : A → σ → Option (L × σ)} {s₀ : σ}

theorem Trace.replay (h : Trace (ofExec init exec) tr s) (hr : replay exec as s = some (tr', s')) :
    Trace (ofExec init exec) (tr ++ tr') s' := by
  induction as generalizing tr tr' s with
  | nil =>
    obtain ⟨rfl, rfl⟩ := Prod.mk.inj (Option.some.inj hr)
    rwa [append_nil]
  | cons a as ih =>
    unfold TransitionSystem.replay at hr
    split at hr
    · cases hr
    · next l s1 hex =>
      obtain ⟨⟨ls, s2⟩, hr', heq⟩ := Option.map_eq_some_iff.mp hr
      obtain ⟨rfl, rfl⟩ := Prod.mk.inj heq
      have := ih (h.step ⟨a, hex⟩) hr'
      rwa [append_assoc] at this

/-- A replay from an initial state is a run. -/
theorem trace_of_replay (h₀ : init s₀) (hr : replay exec as s₀ = some (tr, s)) :
    Trace (ofExec init exec) tr s := by
  have h0 : Trace (ofExec init exec) [] s₀ := .init h₀
  have := h0.replay hr
  rwa [nil_append] at this

/-- A replay that passes a test is a run that does. -/
theorem exists_trace_of_replay (exec : A → σ → Option (L × σ))
    (as : List A) (test : List L → σ → Bool) (h₀ : init s₀)
    (h : (replay exec as s₀).any (fun r => test r.1 r.2) = true) :
    ∃ tr s, Trace (ofExec init exec) tr s ∧ test tr s = true := by
  cases hr : replay exec as s₀ with
  | none =>
    rw [hr] at h
    cases h
  | some r =>
    rw [hr] at h
    exact ⟨r.1, r.2, trace_of_replay h₀ hr, h⟩

end TransitionSystem
