import Mathlib.Logic.Function.Basic
import Mathlib.Data.List.Basic

/-! # Redo logs

    The disk is a function from addresses to values, changed by single writes
    that reach it in order.  A redo log keeps a header at one address and the
    new values of a transaction in log slots.  This module has the part of the
    argument that does not depend on how the writes are produced:

    * `applyWrites`: the disk after a list of writes, and what a prefix of the
      list can have changed.
    * `CommitTrace` / `RecoverTrace`: the write sequences of a commit and of a
      recovery.
    * `Recoverable`: the disks a crash can leave behind; every prefix of a
      commit ends in one, every prefix of a recovery stays among them, and a
      whole recovery ends in the old or in the new disk.
-/

namespace RedoLog

open Function List

variable {A V : Type}

/-! ## Writes in order -/

/-- The writes `(f 0, g 0), …, (f (n-1), g (n-1))`. -/
def writesTo (f : Nat → A) (g : Nat → V) (n : Nat) : List (A × V) :=
  (List.range n).map fun t => (f t, g t)

section

variable (f : Nat → A) (g : Nat → V)
include f g

@[simp] theorem length_writesTo (n : Nat) : (writesTo f g n).length = n := by simp [writesTo]

theorem writesTo_succ (n : Nat) : writesTo f g (n + 1) = writesTo f g n ++ [(f n, g n)] := by
  simp [writesTo, range_succ]

/-- The first write apart, the others shifted. -/
theorem writesTo_cons (n : Nat) :
    writesTo f g (n + 1) = (f 0, g 0) :: writesTo (fun t => f (t + 1)) (fun t => g (t + 1)) n := by
  simp [writesTo, range_succ_eq_map, comp_def]

theorem take_writesTo (k n : Nat) : (writesTo f g n).take k = writesTo f g (min k n) := by
  simp [writesTo, ← map_take, take_range]

end

variable [DecidableEq A]

/-- The disk after the writes `ws`, oldest first. -/
def applyWrites (ws : List (A × V)) (d : A → V) : A → V :=
  ws.foldl (fun d w => update d w.1 w.2) d

@[simp] theorem applyWrites_nil (d : A → V) : applyWrites [] d = d := rfl

@[simp] theorem applyWrites_cons (w : A × V) (ws : List (A × V)) (d : A → V) :
    applyWrites (w :: ws) d = applyWrites ws (update d w.1 w.2) := rfl

theorem applyWrites_append (ws vs : List (A × V)) (d : A → V) :
    applyWrites (ws ++ vs) d = applyWrites vs (applyWrites ws d) := by
  simp [applyWrites, foldl_append]

variable {ws : List (A × V)} {d : A → V}

/-- An address no write names keeps its value. -/
theorem applyWrites_of_not_mem {x : A} (h : ∀ w ∈ ws, w.1 ≠ x) : applyWrites ws d x = d x := by
  induction ws generalizing d with
  | nil => rfl
  | cons w ws ih =>
    rw [applyWrites_cons, ih (fun v hv => h v (mem_cons_of_mem _ hv)),
      update_of_ne (h w mem_cons_self).symm]

variable {n : Nat}

theorem applyWrites_writesTo_of_ne {f : Nat → A} {g : Nat → V} {x : A}
    (h : ∀ t < n, f t ≠ x) : applyWrites (writesTo f g n) d x = d x := by
  apply applyWrites_of_not_mem
  intro w hw
  obtain ⟨t, ht, rfl⟩ := mem_map.mp hw
  exact h t (mem_range.mp ht)

/-- With distinct targets, each target holds its own value afterwards. -/
theorem applyWrites_writesTo_at {f : Nat → A} {g : Nat → V}
    (hinj : ∀ s t, s < n → t < n → f s = f t → s = t) {t : Nat} (ht : t < n) :
    applyWrites (writesTo f g n) d (f t) = g t := by
  induction n with
  | zero => omega
  | succ n ih =>
    rw [writesTo_succ, applyWrites_append]
    simp only [applyWrites_cons, applyWrites_nil]
    by_cases htn : t = n
    · subst htn
      rw [update_self]
    · have hne : f t ≠ f n := fun h => htn (hinj t n (by omega) (by omega) h)
      rw [update_of_ne hne]
      exact ih (fun s t hs ht => hinj s t (by omega) (by omega)) (by omega)

/-! ## Layout of the log and transactions -/

/-- Where a log lives: its header address, its slots, and how a header value
    lists the targets of the logged values. -/
structure Layout (A V : Type) where
  hdr : V → List A
  start : A
  slot : Nat → A
  /-- Number of slots. -/
  cap : Nat
  slot_inj : ∀ s t, s < cap → t < cap → slot s = slot t → s = t
  slot_ne_start : ∀ t, t < cap → slot t ≠ start

/-- Addresses outside the log. -/
def Layout.Home (lay : Layout A V) (x : A) : Prop :=
  x ≠ lay.start ∧ ∀ t, t < lay.cap → x ≠ lay.slot t

/-- Equality of two disks outside the log. -/
def Layout.EqHome (lay : Layout A V) (d d' : A → V) : Prop :=
  ∀ x, lay.Home x → d x = d' x

/-- A transaction that fits the log: `n` distinct targets outside the log,
    each with its new value. -/
structure Txn (lay : Layout A V) where
  n : Nat
  target : Nat → A
  value : Nat → V
  fits : n ≤ lay.cap
  target_inj : ∀ s t, s < n → t < n → target s = target t → s = t
  target_home : ∀ t, t < n → lay.Home (target t)

variable {lay : Layout A V}

/-- The header list of a transaction. -/
def Txn.list (T : Txn lay) : List A := (List.range T.n).map T.target

/-- The disk after the transaction. -/
def Txn.post (T : Txn lay) (d : A → V) : A → V :=
  applyWrites (writesTo T.target T.value T.n) d

/-- The writes of a commit: values into the slots, the header (the commit
    point), values to their targets, an empty header. -/
def CommitTrace (T : Txn lay) (ws : List (A × V)) : Prop :=
  ∃ h₁ h₂, lay.hdr h₁ = T.list ∧ lay.hdr h₂ = [] ∧
    ws = writesTo lay.slot T.value T.n ++ (lay.start, h₁) ::
      (writesTo T.target T.value T.n ++ [(lay.start, h₂)])

/-- The writes of a recovery from `d`: the slots the header lists to their
    targets, then an empty header. -/
def RecoverTrace (lay : Layout A V) (d : A → V) (ws : List (A × V)) : Prop :=
  ∃ n f h, lay.hdr (d lay.start) = (List.range n).map f ∧ lay.hdr h = [] ∧
    ws = writesTo f (fun t => d (lay.slot t)) n ++ [(lay.start, h)]

/-! ## The disks a crash can leave -/

/-- No transaction in the log, and the disk is `d₀` outside it. -/
def Clean (lay : Layout A V) (d₀ d : A → V) : Prop :=
  lay.hdr (d lay.start) = [] ∧ lay.EqHome d d₀

section

variable (T : Txn lay) (d₀ d : A → V)

/-- The transaction is committed in the log; its targets may hold anything,
    everything else is as in `d₀`. -/
structure Logged : Prop where
  hdr : lay.hdr (d lay.start) = T.list
  slots : ∀ t, t < T.n → d (lay.slot t) = T.value t
  rest : ∀ x, lay.Home x → (∀ t, t < T.n → T.target t ≠ x) → d x = d₀ x

/-- After the commit point: logged, or already installed and cleared. -/
def Committed : Prop :=
  Logged T d₀ d ∨ Clean lay (T.post d₀) d

/-- Before or after the commit point. -/
def Recoverable : Prop :=
  Clean lay d₀ d ∨ Committed T d₀ d

end

omit [DecidableEq A] in
theorem Txn.slot_ne_target (T : Txn lay) {s t : Nat} (hs : s < lay.cap) (ht : t < T.n) :
    T.target t ≠ lay.slot s :=
  (T.target_home t ht).2 s hs

/-- Outside the log, the slot writes of a commit change nothing. -/
theorem eqHome_writesTo_slot (hn : n ≤ lay.cap) (g : Nat → V) (d : A → V) :
    lay.EqHome (applyWrites (writesTo lay.slot g n) d) d := by
  intro x hx
  exact applyWrites_writesTo_of_ne (fun t ht h => hx.2 t (by omega) h.symm)

theorem eqHome_update_start (d : A → V) (h : V) : lay.EqHome (update d lay.start h) d :=
  fun _ hx => update_of_ne hx.1 _ _

omit [DecidableEq A] in
theorem Layout.EqHome.trans {d₁ d₂ d₃ : A → V} (h : lay.EqHome d₁ d₂) (h' : lay.EqHome d₂ d₃) :
    lay.EqHome d₁ d₃ := fun x hx => (h x hx).trans (h' x hx)

variable {T : Txn lay} {d₀ : A → V}

/-- Writing targets keeps a logged transaction logged: neither the header nor
    a slot is a target. -/
theorem Logged.writeTargets (h : Logged T d₀ d) {k : Nat}
    (hk : k ≤ T.n) (g : Nat → V) : Logged T d₀ (applyWrites (writesTo T.target g k) d) where
  hdr := by
    rw [applyWrites_writesTo_of_ne (fun t ht => (T.target_home t (by omega)).1)]
    exact h.hdr
  slots := by
    intro t ht
    rw [applyWrites_writesTo_of_ne
      (fun s hs => T.slot_ne_target (by have := T.fits; omega) (by omega))]
    exact h.slots t ht
  rest := by
    intro x hx hne
    rw [applyWrites_writesTo_of_ne (fun t ht => hne t (by omega))]
    exact h.rest x hx hne

variable {v : V}

/-- Installing every value of a logged transaction and clearing the header
    gives the new disk. -/
theorem Logged.install (h : Logged T d₀ d) (hv : lay.hdr v = []) :
    Clean lay (T.post d₀) (update (applyWrites (writesTo T.target T.value T.n) d) lay.start v) := by
  refine ⟨by rw [update_self]; exact hv, ?_⟩
  intro x hx
  rw [update_of_ne hx.1]
  by_cases hmem : ∃ t, t < T.n ∧ T.target t = x
  · obtain ⟨t, ht, rfl⟩ := hmem
    rw [Txn.post, applyWrites_writesTo_at T.target_inj ht, applyWrites_writesTo_at T.target_inj ht]
  · have hne : ∀ t, t < T.n → T.target t ≠ x := fun t ht heq => hmem ⟨t, ht, heq⟩
    rw [Txn.post, applyWrites_writesTo_of_ne hne, applyWrites_writesTo_of_ne hne]
    exact h.rest x hx hne

/-- The slot writes followed by the header make the transaction logged. -/
theorem logged_of_header (d₀ : A → V) (hv : lay.hdr v = T.list) :
    Logged T d₀ (update (applyWrites (writesTo lay.slot T.value T.n) d₀) lay.start v) where
  hdr := by rw [update_self]; exact hv
  slots := by
    intro t ht
    have hcap : t < lay.cap := by have := T.fits; omega
    rw [update_of_ne (lay.slot_ne_start t hcap)]
    exact applyWrites_writesTo_at
      (fun s t hs ht => lay.slot_inj s t (by have := T.fits; omega) (by have := T.fits; omega)) ht
  rest := by
    intro x hx _
    rw [update_of_ne hx.1]
    exact eqHome_writesTo_slot T.fits _ _ x hx

/-! ## Crashes during a commit -/

/-- Every prefix of a commit leaves a recoverable disk, and a committed one
    once the header write is in it. -/
theorem commit_initial (hclean : lay.hdr (d₀ lay.start) = []) (hws : CommitTrace T ws) (k : Nat) :
    Recoverable T d₀ (applyWrites (ws.take k) d₀) ∧
    (T.n < k → Committed T d₀ (applyWrites (ws.take k) d₀)) := by
  obtain ⟨h1, h2, hh1, hh2, rfl⟩ := hws
  rw [take_append, take_writesTo, length_writesTo, applyWrites_append]
  rcases Nat.lt_or_ge T.n k with hk | hk
  · -- the header is among the first k writes
    rw [Nat.min_eq_right (by omega), show k - T.n = (k - T.n - 1) + 1 by omega,
      take_succ_cons, applyWrites_cons]
    have hlog : Logged T d₀ _ := logged_of_header d₀ hh1
    suffices hc : Committed T d₀ _ from ⟨Or.inr hc, fun _ => hc⟩
    rw [take_append, take_writesTo, length_writesTo, applyWrites_append]
    rcases Nat.lt_or_ge T.n (k - T.n - 1) with hk' | hk'
    · -- all of it, the final clear included
      right
      rw [Nat.min_eq_right (by omega), take_of_length_le (by simp; omega)]
      exact hlog.install hh2
    · left
      rw [show k - T.n - 1 - T.n = 0 by omega, take_zero, applyWrites_nil]
      exact hlog.writeTargets (by omega) _
  · -- the cut came while the slots were being written
    refine ⟨Or.inl ?_, fun hlt => absurd hlt (by omega)⟩
    rw [show k - T.n = 0 by omega, take_zero, applyWrites_nil]
    have hle : min k T.n ≤ lay.cap := by have := T.fits; omega
    refine ⟨?_, eqHome_writesTo_slot hle _ _⟩
    rw [applyWrites_writesTo_of_ne (fun t ht => lay.slot_ne_start t (by omega))]
    exact hclean

/-! ## Crashes during a recovery -/

omit [DecidableEq A] in
/-- With an empty header a recovery writes only the header. -/
theorem recoverTrace_clean (hd : Clean lay d₀ d)
    (hws : RecoverTrace lay d ws) : ∃ h, lay.hdr h = [] ∧ ws = [(lay.start, h)] := by
  obtain ⟨n, f, h, hlist, hh, rfl⟩ := hws
  have hn : n = 0 := by
    have := congrArg length (hd.1.symm.trans hlist)
    simpa using this.symm
  subst hn
  exact ⟨h, hh, by simp [writesTo]⟩

omit [DecidableEq A] in
/-- With a logged transaction a recovery writes its values to its targets. -/
theorem recoverTrace_logged (hd : Logged T d₀ d) (hws : RecoverTrace lay d ws) :
    ∃ h, lay.hdr h = [] ∧ ws = writesTo T.target T.value T.n ++ [(lay.start, h)] := by
  obtain ⟨n, f, h, hlist, hh, rfl⟩ := hws
  have heq : (range T.n).map T.target = (range n).map f := hd.hdr.symm.trans hlist
  have hn : T.n = n := by simpa using congrArg length heq
  subst hn
  refine ⟨h, hh, ?_⟩
  congr 1
  apply map_congr_left
  intro t ht
  show (f t, d (lay.slot t)) = (T.target t, T.value t)
  rw [hd.slots t (mem_range.mp ht), map_inj_left.mp heq t ht]

theorem clean_update (hd : Clean lay d₀ d) (hv : lay.hdr v = []) :
    Clean lay d₀ (update d lay.start v) :=
  ⟨by rw [update_self]; exact hv, (eqHome_update_start d v).trans hd.2⟩

/-- Cutting a recovery off keeps a clean disk clean. -/
theorem recover_prefix_clean (hd : Clean lay d₀ d)
    (hws : RecoverTrace lay d ws) (k : Nat) : Clean lay d₀ (applyWrites (ws.take k) d) := by
  obtain ⟨h, hh, rfl⟩ := recoverTrace_clean hd hws
  cases k with
  | zero => exact hd
  | succ k => simpa using clean_update hd hh

/-- Cutting a recovery off keeps a committed disk committed. -/
theorem recover_prefix_committed (hd : Committed T d₀ d) (hws : RecoverTrace lay d ws) (k : Nat) :
    Committed T d₀ (applyWrites (ws.take k) d) := by
  rcases hd with hlog | hclean
  · obtain ⟨h, hh, rfl⟩ := recoverTrace_logged hlog hws
    rw [take_append, take_writesTo, length_writesTo, applyWrites_append]
    rcases Nat.lt_or_ge T.n k with hk | hk
    · right
      rw [Nat.min_eq_right (by omega), take_of_length_le (by simp; omega)]
      exact hlog.install hh
    · left
      rw [show k - T.n = 0 by omega, take_zero, applyWrites_nil]
      exact hlog.writeTargets (by omega) _
  · exact Or.inr (recover_prefix_clean hclean hws k)

/-- A whole recovery of a committed disk ends in the new disk. -/
theorem recover_committed (hd : Committed T d₀ d) (hws : RecoverTrace lay d ws) :
    Clean lay (T.post d₀) (applyWrites ws d) := by
  rcases hd with hlog | hclean
  · obtain ⟨h, hh, rfl⟩ := recoverTrace_logged hlog hws
    rw [applyWrites_append]
    exact hlog.install hh
  · have := recover_prefix_clean hclean hws ws.length
    rwa [take_length] at this

/-- A whole recovery of a clean disk changes nothing outside the log. -/
theorem recover_clean (hd : Clean lay d₀ d)
    (hws : RecoverTrace lay d ws) : Clean lay d₀ (applyWrites ws d) := by
  have := recover_prefix_clean hd hws ws.length
  rwa [take_length] at this

end RedoLog
