import NoviceKernel.Lib.Count
import NoviceKernel.Lib.TransitionSystem
import NoviceKernel.VmMap

/-! # Page references on several harts (`kalloc.c`)

    Any number of processes call `kalloc`, `incref` and `kfree`.  The steps are
    the sections under `kmem.lock`, and in `kfree` the test of `refcount` that
    is made between its two sections, without the lock.

    1. **Model**: where a `kfree` can be interrupted, the shared fields, the
       references that callers have and have not given back.
    2. **Invariant**: as long as no `kfree` is misled by its second look at the
       count, the one that brings a count to 0 is the one that pushes the page.
    3. **Two releases at once**: both pass the test, the page is pushed twice. -/

namespace NoviceKernel.PageRefs

open TransitionSystem Count VM Function

/-! ## 1. Model -/

/-- Where a process is. -/
inductive PC where
  | idle
  /-- `kfree`: the first section has left `left` references; the test of
      `refcount[pn]` is next. -/
  | reread (pa left : Nat)
  /-- `kfree`: before the section that pushes the page. -/
  | push (pa : Nat)
  /-- `panic(msg)`. -/
  | panic (msg : String)
  deriving DecidableEq

/-- `kmem.freelist`, `refcount` and the processes. -/
structure State (N : Nat) where
  freelist : List Nat
  /-- By page number. -/
  refcount : Nat → Nat
  /-- References obtained from `kalloc` and `incref` and not yet given to
      `kfree`, by page address. -/
  held : Nat → Nat
  pc : Fin N → PC

/-- What a step is seen to do. -/
inductive Event where
  /-- The count of the page falls to 0. -/
  | fell (pa : Nat)
  | pushed (pa : Nat)
  /-- A `kfree` that left references behind finds the count at 0. -/
  | stale (pa : Nat)
  | tau
  deriving DecidableEq

inductive Action (N : Nat) where
  | kalloc (p : Fin N)
  | incref (p : Fin N) (pa : Nat)
  | kfree (p : Fin N) (pa : Nat)
  /-- The process goes on in `kfree`. -/
  | run (p : Fin N)

variable {N : Nat}

/-- Move process `p` to program point `c`. -/
def State.goto (s : State N) (p : Fin N) (c : PC) : State N :=
  { s with pc := update s.pc p c }

open State

@[simp] theorem State.goto_self (s : State N) (p : Fin N) (c : PC) : (s.goto p c).pc p = c := by
  simp [goto]

@[simp] theorem State.goto_ne (s : State N) {p q : Fin N} (c : PC) (h : q ≠ p) :
    (s.goto p c).pc q = s.pc q := by
  simp [goto, h]

/-- The section of `kalloc`. -/
def kalloc (p : Fin N) (s : State N) : Event × State N :=
  match s.freelist with
  | [] => (.tau, s)
  | r :: rest =>
    if s.refcount (r / PGSIZE) ≠ 0 then (.tau, s.goto p (.panic "kalloc: ref"))
    else (.tau, { s with
      freelist := rest
      refcount := update s.refcount (r / PGSIZE) 1
      held := update s.held r (s.held r + 1) })

/-- The section of `incref`. -/
def incref (p : Fin N) (pa : Nat) (s : State N) : Event × State N :=
  if pa ≥ PHYSTOP ∨ s.refcount (pa / PGSIZE) < 1 then (.tau, s.goto p (.panic "incref"))
  else (.tau, { s with
    refcount := update s.refcount (pa / PGSIZE) (s.refcount (pa / PGSIZE) + 1)
    held := update s.held pa (s.held pa + 1) })

/-- `kfree` up to the end of its first section. -/
def kfree (lay : Layout) (p : Fin N) (pa : Nat) (s : State N) : Event × State N :=
  if pa % PGSIZE ≠ 0 ∨ pa < lay.ends ∨ pa ≥ PHYSTOP then (.tau, s.goto p (.panic "kfree"))
  else if s.refcount (pa / PGSIZE) < 1 then (.tau, s.goto p (.panic "kfree cow"))
  else
    let left := s.refcount (pa / PGSIZE) - 1
    (if left = 0 then .fell pa else .tau, { s.goto p (.reread pa left) with
      refcount := update s.refcount (pa / PGSIZE) left
      held := update s.held pa (s.held pa - 1) })

/-- The rest of `kfree`: the test without the lock, and the section that
    pushes. -/
def run (p : Fin N) (s : State N) : Option (Event × State N) :=
  match s.pc p with
  | .idle | .panic _ => none
  | .reread pa left =>
    if s.refcount (pa / PGSIZE) > 0 then some (.tau, s.goto p .idle)
    else some (if left > 0 then .stale pa else .tau, s.goto p (.push pa))
  | .push pa => some (.pushed pa, { s.goto p .idle with freelist := pa :: s.freelist })

/-- The steps of the system. A caller of `kfree` has a reference to give back,
    and `incref` is called on page addresses. -/
def exec (lay : Layout) : Action N → State N → Option (Event × State N)
  | .kalloc p, s => if s.pc p = .idle then some (kalloc p s) else none
  | .incref p pa, s => if s.pc p = .idle ∧ pa % PGSIZE = 0 then some (incref p pa s) else none
  | .kfree p pa, s => if s.pc p = .idle ∧ 0 < s.held pa then some (kfree lay p pa s) else none
  | .run p, s => run p s

/-- After `kinit`: free pages, nobody has a reference. -/
structure Init (lay : Layout) (s : State N) : Prop where
  nodup : s.freelist.Nodup
  page : ∀ pa ∈ s.freelist, isPage lay pa
  refcount : ∀ n, s.refcount n = 0
  held : ∀ pa, s.held pa = 0
  pc : ∀ p, s.pc p = .idle

def system (lay : Layout) (N : Nat) : System (State N) Event := ofExec (Init lay) (exec lay)

/-! ## 2. Invariant -/

/-- A `kfree` that brought the count of `pa` to 0 and has yet to push it, or
    one that was misled. -/
def PC.Pushing (pa : Nat) (c : PC) : Prop := c = .reread pa 0 ∨ c = .push pa

instance (pa : Nat) : DecidablePred (PC.Pushing pa) := fun c =>
  inferInstanceAs (Decidable (c = .reread pa 0 ∨ c = .push pa))

/-- What holds along a run without a misled `kfree`. -/
structure Inv (lay : Layout) (tr : List Event) (s : State N) : Prop where
  nodup : s.freelist.Nodup
  free : ∀ pa ∈ s.freelist, isPage lay pa ∧ s.refcount (pa / PGSIZE) = 0
  /-- Every reference is accounted for. -/
  held : ∀ pa, pa % PGSIZE = 0 → s.held pa = s.refcount (pa / PGSIZE)
  page : ∀ pa, 0 < s.held pa → isPage lay pa
  /-- A page to be pushed is in nobody's hands. -/
  pushing : ∀ p pa, (s.pc p).Pushing pa →
    isPage lay pa ∧ s.refcount (pa / PGSIZE) = 0 ∧ pa ∉ s.freelist
  one : ∀ p q pa, (s.pc p).Pushing pa → (s.pc q).Pushing pa → p = q
  /-- Each fall to 0 has had its push, or one `kfree` is about to make it. -/
  falls : ∀ pa, tr.count (.fell pa) = tr.count (.pushed pa) + count s.pc (PC.Pushing pa)

section Invariant

variable {lay : Layout} {tr : List Event} {s s' : State N} {p q : Fin N} {pa : Nat} {e : Event}
  {c : PC} {a : Action N} {x : Nat}

theorem inv_init (h : Init lay s) : Inv lay [] s where
  nodup := h.nodup
  free := fun pa hpa => ⟨h.page pa hpa, h.refcount _⟩
  held := fun pa _ => by rw [h.held, h.refcount]
  page := fun pa hpa => by rw [h.held] at hpa; cases hpa
  pushing := fun p pa hp => by rw [h.pc] at hp; rcases hp with hp | hp <;> cases hp
  one := fun p q pa hp => by rw [h.pc] at hp; rcases hp with hp | hp <;> cases hp
  falls := by
    intro pa
    have : count s.pc (PC.Pushing pa) = 0 := count_eq_zero.mpr fun p hp => by
      rw [h.pc] at hp
      rcases hp with hp | hp <;> cases hp
    rw [this]
    rfl

theorem pushing_goto (hq : ((s.goto p c).pc q).Pushing pa) :
    (s.pc q).Pushing pa ∨ q = p ∧ c.Pushing pa := by
  rcases update_cases (PC.Pushing pa) hq with hq | ⟨-, hq⟩
  · exact .inr hq
  · exact .inl hq

/-- A page that somebody has references to is neither free nor to be pushed. -/
theorem Inv.busy (h : Inv lay tr s) (hpa : 0 < s.refcount (pa / PGSIZE)) :
    pa ∉ s.freelist ∧ ∀ q, ¬ (s.pc q).Pushing pa := by
  refine ⟨fun hm => ?_, fun q hq => ?_⟩
  · have := (h.free pa hm).2
    omega
  · have := (h.pushing q pa hq).2.1
    omega

/-- A step that neither brings a count to 0 nor pushes. -/
theorem Inv.events (h : Inv lay tr s) (hfell : ∀ pa, e ≠ .fell pa) (hpushed : ∀ pa, e ≠ .pushed pa)
    (hpc : ∀ q pa, (s'.pc q).Pushing pa ↔ (s.pc q).Pushing pa) (pa : Nat) :
    (tr ++ [e]).count (.fell pa) =
      (tr ++ [e]).count (.pushed pa) + count s'.pc (PC.Pushing pa) := by
  have hcount : count s'.pc (PC.Pushing pa) = count s.pc (PC.Pushing pa) :=
    count_congr fun q => hpc q pa
  rw [List.count_append, List.count_append, hcount, h.falls pa,
    List.count_singleton, List.count_singleton, if_neg (by simpa using hfell pa),
    if_neg (by simpa using hpushed pa)]
  rfl

/-- A move between points that push the same pages. -/
theorem Inv.goto (h : Inv lay tr s) (hc : ∀ pa, c.Pushing pa ↔ (s.pc p).Pushing pa)
    (hfell : ∀ pa, e ≠ .fell pa) (hpushed : ∀ pa, e ≠ .pushed pa) :
    Inv lay (tr ++ [e]) (s.goto p c) := by
  have hiff : ∀ q pa, ((s.goto p c).pc q).Pushing pa ↔ (s.pc q).Pushing pa := by
    intro q pa
    exact update_one (motive := fun q c => PC.Pushing pa c ↔ (s.pc q).Pushing pa) q (hc pa)
      fun _ _ => Iff.rfl
  exact { h with
    pushing := fun q pa hq => h.pushing q pa ((hiff q pa).mp hq)
    one := fun q r pa hq hr => h.one q r pa ((hiff q pa).mp hq) ((hiff r pa).mp hr)
    falls := h.events hfell hpushed hiff }

theorem idle_not_pushing (pa : Nat) : ¬ PC.idle.Pushing pa := by
  rintro (h | h) <;> cases h

theorem not_pushing_of_idle (h : s.pc p = .idle) (pa : Nat) : ¬ (s.pc p).Pushing pa := by
  rw [h]
  exact idle_not_pushing pa

/-- A process that was outside of `kfree` panics. -/
theorem Inv.panic (h : Inv lay tr s) (hp : s.pc p = .idle) (msg : String) :
    Inv lay (tr ++ [.tau]) (s.goto p (.panic msg)) := by
  refine h.goto (fun pa => iff_of_false ?_ (not_pushing_of_idle hp pa)) nofun nofun
  rintro (hc | hc) <;> cases hc

theorem pushing_reread {x left : Nat} : (PC.reread pa left).Pushing x ↔ x = pa ∧ left = 0 := by
  constructor
  · rintro (hx | hx)
    · obtain ⟨rfl, rfl⟩ := PC.reread.inj hx
      exact ⟨rfl, rfl⟩
    · cases hx
  · rintro ⟨rfl, rfl⟩
    exact .inl rfl

theorem pushing_push : (PC.push pa).Pushing x ↔ x = pa := by
  constructor
  · rintro (hx | hx)
    · cases hx
    · exact (PC.push.inj hx).symm
  · rintro rfl
    exact .inr rfl

/-- Page addresses and page numbers. -/
theorem update_pn {f : Nat → Nat} {v : Nat} (hx : x % PGSIZE = 0) (hpa : pa % PGSIZE = 0) :
    update f (pa / PGSIZE) v (x / PGSIZE) = if x = pa then v else f (x / PGSIZE) := by
  by_cases h : x = pa
  · rw [if_pos h, h, update_self]
  · rw [if_neg h, update_of_ne]
    rw [PGSIZE_eq] at *
    omega

/-- The count of a page is set to the number of references there then are. -/
theorem Inv.recount (h : Inv lay tr s) (hpage : isPage lay pa) {v w : Nat} (hv : w = v) :
    (∀ x, x % PGSIZE = 0 → update s.held pa w x = update s.refcount (pa / PGSIZE) v (x / PGSIZE)) ∧
      (∀ x, 0 < update s.held pa w x → isPage lay x) ∧
      ∀ x, isPage lay x → x ≠ pa → s.refcount (x / PGSIZE) = 0 →
        update s.refcount (pa / PGSIZE) v (x / PGSIZE) = 0 := by
  refine ⟨?_, ?_, ?_⟩
  · intro x hx
    rw [update_pn hx hpage.1]
    by_cases he : x = pa
    · rw [he, update_self, if_pos rfl, hv]
    · rw [update_of_ne he, if_neg he, h.held x hx]
  · intro x hx
    by_cases he : x = pa
    · exact he ▸ hpage
    · rw [update_of_ne he] at hx
      exact h.page x hx
  · intro x hx hne h0
    rw [update_pn hx.1 hpage.1, if_neg hne, h0]

theorem Inv.kalloc (h : Inv lay tr s) (hp : s.pc p = .idle) :
    Inv lay (tr ++ [(PageRefs.kalloc p s).1]) (PageRefs.kalloc p s).2 := by
  unfold PageRefs.kalloc
  split
  · exact { h with falls := h.events nofun nofun fun _ _ => Iff.rfl }
  · next r rest hcons =>
    split
    · exact h.panic hp _
    · next href =>
      have hr := h.free r (by rw [hcons]; exact List.mem_cons_self)
      obtain ⟨hnot, hnd⟩ := List.nodup_cons.mp (hcons ▸ h.nodup)
      have hsub : ∀ pa ∈ rest, pa ∈ s.freelist := fun pa hpa => by
        rw [hcons]; exact List.mem_cons_of_mem _ hpa
      obtain ⟨hheld, hpage, hzero⟩ := h.recount hr.1 (w := s.held r + 1) (v := 1) (by
        rw [h.held r hr.1.1, hr.2])
      refine ⟨hnd, ?_, hheld, hpage, ?_, h.one, h.events nofun nofun fun _ _ => Iff.rfl⟩
      · intro pa hpa
        obtain ⟨h1, h2⟩ := h.free pa (hsub pa hpa)
        exact ⟨h1, hzero pa h1 (by rintro rfl; exact hnot hpa) h2⟩
      · intro q pa hq
        obtain ⟨h1, h2, h3⟩ := h.pushing q pa hq
        refine ⟨h1, hzero pa h1 ?_ h2, fun hm => h3 (hsub pa hm)⟩
        rintro rfl
        exact h3 (by rw [hcons]; exact List.mem_cons_self)

theorem Inv.incref (h : Inv lay tr s) (hp : s.pc p = .idle) (hpa : pa % PGSIZE = 0) :
    Inv lay (tr ++ [(PageRefs.incref p pa s).1]) (PageRefs.incref p pa s).2 := by
  unfold PageRefs.incref
  split
  · exact h.panic hp _
  · next hc =>
    have hpos : 0 < s.refcount (pa / PGSIZE) := by omega
    obtain ⟨hfree, hpush⟩ := h.busy hpos
    obtain ⟨hheld, hpage, hzero⟩ := h.recount (h.page pa (by rw [h.held pa hpa]; exact hpos))
      (w := s.held pa + 1) (by rw [h.held pa hpa])
    refine ⟨h.nodup, ?_, hheld, hpage, ?_, h.one, h.events nofun nofun fun _ _ => Iff.rfl⟩
    · intro x hx
      obtain ⟨h1, h2⟩ := h.free x hx
      exact ⟨h1, hzero x h1 (by rintro rfl; exact hfree hx) h2⟩
    · intro q x hq
      obtain ⟨h1, h2, h3⟩ := h.pushing q x hq
      exact ⟨h1, hzero x h1 (by rintro rfl; exact hpush q hq) h2, h3⟩

theorem count_goto_true (hp : ¬ (s.pc p).Pushing pa) (hc : c.Pushing pa) :
    count (s.goto p c).pc (PC.Pushing pa) = count s.pc (PC.Pushing pa) + 1 :=
  count_update_true hp hc

theorem count_goto_same (h : c.Pushing pa ↔ (s.pc p).Pushing pa) :
    count (s.goto p c).pc (PC.Pushing pa) = count s.pc (PC.Pushing pa) :=
  count_update_iff h

theorem Inv.kfree (h : Inv lay tr s) (hp : s.pc p = .idle) (hheld : 0 < s.held pa) :
    Inv lay (tr ++ [(PageRefs.kfree lay p pa s).1]) (PageRefs.kfree lay p pa s).2 := by
  have hpage := h.page pa hheld
  have hpos : 0 < s.refcount (pa / PGSIZE) := by rw [← h.held pa hpage.1]; exact hheld
  obtain ⟨hfree, hpush⟩ := h.busy hpos
  obtain ⟨h1, h2, h3⟩ := hpage
  unfold PageRefs.kfree
  rw [if_neg (by omega), if_neg (by omega)]
  generalize hleft : s.refcount (pa / PGSIZE) - 1 = left
  obtain ⟨hheld', hpage', hzero⟩ := h.recount ⟨h1, h2, h3⟩ (w := s.held pa - 1) (v := left) (by
    rw [h.held pa h1, hleft])
  refine ⟨h.nodup, ?_, hheld', hpage', ?_, ?_, ?_⟩
  · intro x hx
    obtain ⟨hx1, hx2⟩ := h.free x hx
    exact ⟨hx1, hzero x hx1 (by rintro rfl; exact hfree hx) hx2⟩
  · intro q x hq
    rcases pushing_goto hq with hq' | ⟨-, hc⟩
    · obtain ⟨hx1, hx2, hx3⟩ := h.pushing q x hq'
      exact ⟨hx1, hzero x hx1 (by rintro rfl; exact hpush q hq') hx2, hx3⟩
    · obtain ⟨rfl, hz⟩ := pushing_reread.mp hc
      refine ⟨⟨h1, h2, h3⟩, ?_, hfree⟩
      dsimp only
      rw [update_self, hz]
  · intro q r x hq hr
    rcases pushing_goto hq with hq' | ⟨hqp, hc⟩ <;> rcases pushing_goto hr with hr' | ⟨hrp, hc'⟩
    · exact h.one q r x hq' hr'
    · exact absurd ((pushing_reread.mp hc').1 ▸ hq') (hpush q)
    · exact absurd ((pushing_reread.mp hc).1 ▸ hr') (hpush r)
    · rw [hqp, hrp]
  · intro x
    have hold : ¬ (s.pc p).Pushing x := not_pushing_of_idle hp x
    have hfalls := h.falls x
    dsimp only
    rw [List.count_append, List.count_append, List.count_singleton, List.count_singleton]
    by_cases hx : x = pa ∧ left = 0
    · have := count_goto_true (s := s) hold (pushing_reread.mpr hx)
      rw [show count (pc { s.goto p (.reread pa left) with refcount := _, held := _ }) _ =
        count (s.goto p (.reread pa left)).pc (PC.Pushing x) from rfl, this, hfalls,
        if_pos hx.2, hx.1]
      simp
      omega
    · have : count (s.goto p (.reread pa left)).pc (PC.Pushing x) = count s.pc (PC.Pushing x) :=
        count_goto_same (iff_of_false (fun hc => hx (pushing_reread.mp hc)) hold)
      rw [show count (pc { s.goto p (.reread pa left) with refcount := _, held := _ }) _ =
        count (s.goto p (.reread pa left)).pc (PC.Pushing x) from rfl, this, hfalls]
      have hne : (if left = 0 then Event.fell pa else .tau) ≠ .fell x := by
        split
        · next hz => exact fun e => hx ⟨(Event.fell.inj e).symm, hz⟩
        · nofun
      have hne' : (if left = 0 then Event.fell pa else .tau) ≠ .pushed x := by split <;> nofun
      rw [if_neg (by simpa using hne), if_neg (by simpa using hne')]
      rfl

theorem Inv.run (h : Inv lay tr s) (hrun : PageRefs.run p s = some (e, s'))
    (hstale : ∀ pa, e ≠ .stale pa) : Inv lay (tr ++ [e]) s' := by
  unfold PageRefs.run at hrun
  generalize hpc : s.pc p = c at hrun
  cases c with
  | idle | panic _ => cases hrun
  | reread pa left =>
    dsimp only at hrun
    split at hrun
    · next hpos =>
      cases hrun
      refine h.goto (fun x => iff_of_false (idle_not_pushing x) fun hx => ?_) nofun nofun
      have hzero := (h.pushing p x hx).2.1
      rw [hpc] at hx
      rw [(pushing_reread.mp hx).1] at hzero
      omega
    · cases hrun
      -- the count it left was 0 as well, or it is misled
      have hleft : left = 0 := by
        by_contra hne
        exact hstale pa (if_pos (by omega))
      refine h.goto (fun x => ?_) (by rw [hleft]; nofun) (by rw [hleft]; nofun)
      rw [hpc, pushing_reread, pushing_push]
      exact ⟨fun hx => ⟨hx, hleft⟩, And.left⟩
  | push pa =>
    cases hrun
    have hpush : (s.pc p).Pushing pa := by rw [hpc]; exact .inr rfl
    obtain ⟨h1, h2, h3⟩ := h.pushing p pa hpush
    have hback : ∀ q x, ((s.goto p .idle).pc q).Pushing x → q ≠ p ∧ (s.pc q).Pushing x :=
      fun q x hq => update_other (PC.Pushing x) hq (idle_not_pushing x)
    refine ⟨List.nodup_cons.mpr ⟨h3, h.nodup⟩, ?_, h.held, h.page, ?_, ?_, ?_⟩
    · intro x hx
      rcases List.mem_cons.mp hx with rfl | hx
      · exact ⟨h1, h2⟩
      · exact h.free x hx
    · intro q x hq
      obtain ⟨hne, hq'⟩ := hback q x hq
      obtain ⟨hx1, hx2, hx3⟩ := h.pushing q x hq'
      refine ⟨hx1, hx2, fun hm => ?_⟩
      rcases List.mem_cons.mp hm with rfl | hm
      · exact hne (h.one q p x hq' hpush)
      · exact hx3 hm
    · exact fun q r x hq hr => h.one q r x (hback q x hq).2 (hback r x hr).2
    · intro x
      have hfalls := h.falls x
      rw [List.count_append, List.count_append, List.count_singleton, List.count_singleton,
        if_neg (by simp)]
      by_cases hx : x = pa
      · subst hx
        have : count (s.goto p .idle).pc (PC.Pushing x) + 1 = count s.pc (PC.Pushing x) :=
          count_update_false hpush (idle_not_pushing x)
        rw [if_pos (by simp)]
        show _ = _ + count (s.goto p .idle).pc (PC.Pushing x)
        omega
      · have : count (s.goto p .idle).pc (PC.Pushing x) = count s.pc (PC.Pushing x) := by
          refine count_goto_same (iff_of_false (idle_not_pushing x) ?_)
          rw [hpc, pushing_push]
          exact hx
        rw [if_neg (by simpa using fun e : pa = x => hx e.symm)]
        show _ = _ + count (s.goto p .idle).pc (PC.Pushing x)
        omega

theorem Inv.step (h : Inv lay tr s) (hex : exec lay a s = some (e, s'))
    (hstale : ∀ pa, e ≠ .stale pa) : Inv lay (tr ++ [e]) s' := by
  cases a with
  | kalloc p =>
    obtain ⟨hp, hex⟩ := Option.ite_none_right_eq_some.mp hex
    have := h.kalloc hp
    rwa [Option.some.inj hex] at this
  | incref p pa =>
    obtain ⟨hp, hex⟩ := Option.ite_none_right_eq_some.mp hex
    have := h.incref hp.1 hp.2
    rwa [Option.some.inj hex] at this
  | kfree p pa =>
    obtain ⟨hp, hex⟩ := Option.ite_none_right_eq_some.mp hex
    have := h.kfree hp.1 hp.2
    rwa [Option.some.inj hex] at this
  | run p => exact h.run hex hstale

/-- Only the test without the lock can be misled. -/
theorem stale_inv (hex : exec lay a s = some (.stale pa, s')) :
    ∃ p left, s.pc p = .reread pa left ∧ left ≠ 0 ∧ s' = s.goto p (.push pa) := by
  have key : ∀ {x : Event × State N}, x.1 ≠ .stale pa → some x ≠ some (.stale pa, s') := by
    rintro x hx he
    exact hx (congrArg Prod.fst (Option.some.inj he))
  cases a with
  | kalloc p =>
    refine absurd (Option.ite_none_right_eq_some.mp hex).2 (key ?_)
    unfold kalloc
    split
    · nofun
    · split <;> nofun
  | incref p x =>
    refine absurd (Option.ite_none_right_eq_some.mp hex).2 (key ?_)
    unfold incref
    split <;> nofun
  | kfree p x =>
    refine absurd (Option.ite_none_right_eq_some.mp hex).2 (key ?_)
    unfold kfree
    split
    · nofun
    · split
      · nofun
      · dsimp only
        split <;> nofun
  | run p =>
    rw [exec, run] at hex
    generalize hpc : s.pc p = c at hex
    cases c with
    | idle | panic _ | push x => cases hex
    | reread x left =>
      dsimp only at hex
      split at hex
      · cases hex
      · obtain ⟨he, hs'⟩ := Prod.mk.inj (Option.some.inj hex)
        split at he
        · next hpos =>
          obtain rfl := Event.stale.inj he
          exact ⟨p, left, hpc, by omega, hs'.symm⟩
        · cases he

theorem inv_trace (h : Trace (system lay N) tr s) (hstale : ∀ pa, .stale pa ∉ tr) :
    Inv lay tr s := by
  revert hstale
  refine h.invariant (I := fun tr s => (∀ pa, .stale pa ∉ tr) → Inv lay tr s) ?_ ?_
  · exact fun s hs _ => inv_init hs
  · rintro tr s e s' ih ⟨a, ha⟩ hno
    exact (ih fun pa hm => hno pa (List.mem_append_left _ hm)).step ha fun pa he =>
      hno pa (List.mem_append_right _ (by rw [he]; exact List.mem_singleton_self _))

/-- **Page reference counts.**  In every run in which no `kfree` finds a count of
    0 that it did not itself bring about: a page is not on the free list twice,
    nor while it has references, and each fall of its count to 0 is followed by
    one push, by the one `kfree` that is still under way.

    The condition is exact: the first `kfree` that is misled is one push too
    many. -/
theorem page_refs_exact (h : Trace (system lay N) tr s) (hstale : ∀ pa, .stale pa ∉ tr) :
    s.freelist.Nodup ∧ (∀ pa ∈ s.freelist, s.refcount (pa / PGSIZE) = 0) ∧
    (∀ pa, tr.count (.fell pa) = tr.count (.pushed pa) + count s.pc (PC.Pushing pa) ∧
      count s.pc (PC.Pushing pa) ≤ 1) ∧
    ∀ pa s', (system lay N).step s (.stale pa) s' →
      tr.count (.fell pa) + 1 = tr.count (.pushed pa) + count s'.pc (PC.Pushing pa) := by
  have hinv := inv_trace h hstale
  refine ⟨hinv.nodup, fun pa hpa => (hinv.free pa hpa).2, fun pa => ⟨hinv.falls pa, ?_⟩, ?_⟩
  · unfold count
    refine Finset.card_le_one.mpr fun p hp q hq => ?_
    simp only [Finset.mem_filter, Finset.mem_univ, true_and] at hp hq
    exact hinv.one p q pa hp hq
  · rintro pa s' ⟨a, ha⟩
    obtain ⟨p, left, hpc, hleft, rfl⟩ := stale_inv ha
    have hnot : ¬ (s.pc p).Pushing pa := by
      rw [hpc, pushing_reread]
      exact fun hc => hleft hc.2
    rw [count_goto_true hnot (.inr rfl), hinv.falls pa]
    rfl

end Invariant

/-! ## 3. Two releases at once -/

/-- One free page and nobody in `kfree`. -/
def onePage : State 2 where
  freelist := [fourRoot]
  refcount := fun _ => 0
  held := fun _ => 0
  pc := fun _ => .idle

theorem onePage_init : Init fourLayout onePage where
  nodup := List.nodup_singleton _
  page := fun pa hpa => by
    rw [List.mem_singleton.mp hpa]
    exact ⟨by decide, by decide, by decide⟩
  refcount := fun _ => rfl
  held := fun _ => rfl
  pc := fun _ => rfl

/-- The two processes that share a page. -/
def owner : Fin 2 := ⟨0, Nat.zero_lt_two⟩

def sharer : Fin 2 := ⟨1, Nat.one_lt_two⟩

/-- A page with two references is released by two processes one after the
    other. -/
def inTurn : List (Action 2) :=
  [.kalloc owner, .incref sharer fourRoot, .kfree owner fourRoot, .run owner,
    .kfree sharer fourRoot,
    .run sharer, .run sharer]

theorem page_refs_exact_inTurn :
    ∃ tr s, Trace (system fourLayout 2) tr s ∧ tr.count (.fell fourRoot) = 1 ∧
      tr.count (.pushed fourRoot) = 1 ∧ s.freelist.Nodup := by
  have hrun : (replay (exec fourLayout) inTurn onePage).map Prod.fst =
      some [.tau, .tau, .tau, .tau, .fell fourRoot, .tau, .pushed fourRoot] := by decide
  obtain ⟨⟨tr, s⟩, hrep, htr⟩ := Option.map_eq_some_iff.mp hrun
  dsimp only at htr
  have htrace : Trace (system fourLayout 2) tr s := trace_of_replay onePage_init hrep
  have hstale : ∀ pa, .stale pa ∉ tr := by rw [htr]; simp
  refine ⟨tr, s, htrace, ?_, ?_, (page_refs_exact htrace hstale).1⟩
  · rw [htr]; decide
  · rw [htr]; decide

/-- The two releases overlap: both decrement before either looks again. -/
def atOnce : List (Action 2) :=
  [.kalloc owner, .incref sharer fourRoot, .kfree owner fourRoot, .kfree sharer fourRoot,
    .run owner, .run owner, .run sharer, .run sharer]

theorem page_pushed_twice :
    ∃ tr s, Trace (system fourLayout 2) tr s ∧ s.freelist = [fourRoot, fourRoot] ∧
      tr.count (.fell fourRoot) = 1 ∧ tr.count (.pushed fourRoot) = 2 := by
  have hrun : (replay (exec fourLayout) atOnce onePage).map (fun r => (r.1, r.2.freelist)) =
      some ([.tau, .tau, .tau, .fell fourRoot, .stale fourRoot, .pushed fourRoot, .tau,
        .pushed fourRoot], [fourRoot, fourRoot]) := by decide
  obtain ⟨⟨tr, s⟩, hrep, htr⟩ := Option.map_eq_some_iff.mp hrun
  obtain ⟨htr, hs⟩ := Prod.mk.inj htr
  dsimp only at htr hs
  refine ⟨tr, s, trace_of_replay onePage_init hrep, hs, ?_, ?_⟩
  · rw [htr]; decide
  · rw [htr]; decide

end NoviceKernel.PageRefs
