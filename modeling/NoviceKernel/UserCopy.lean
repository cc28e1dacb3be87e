import NoviceKernel.UserMem
import NoviceKernel.VmCopy

/-! # Copies from and to user memory (`vm.c`)

    `copyout`, `copyin` and `copyinstr` go page by page.  `walkaddr` gives the
    physical page of each, or maps one, or refuses.

    1. **Model** of the three loops.
    2. **User memory as bytes**: `Allows` is what the user can access, `Copies`
       says that a range of bytes was written and nothing else.
    3. **`walkaddr`** for any address.
    4. **The loops**.

    **Key theorem**: the three copy exactly the bytes of their range, up to the
    first one that the user may not access (`user_copies`). -/

namespace NoviceKernel.VM

open Hoare Ledger List Nat

/-! ## 1. Model -/

/-- `n` bytes of memory from `a` on. -/
def bytesAt (m : Nat → UInt8) (a n : Nat) : List UInt8 := (List.range n).map fun i => m (a + i)

section Functions

variable (lay : Layout) (p : UserSpace) (pagetable : Nat)

/-- The loop of `copyout`, at most `k` rounds. -/
def copyout_loop : Nat → Nat → (Nat → UInt8) → Nat → VmM Int
  | 0, _, _, _ => return 0
  | k + 1, dstva, src, len =>
    if len > 0 then do
      let va0 := PGROUNDDOWN dstva
      let pa0 ← walkaddr lay p pagetable va0
      if pa0 = 0 then return -1
      else do
        let n := min (PGSIZE - (dstva - va0)) len
        memmove (pa0 + (dstva - va0)) n src
        copyout_loop k ((va0 + PGSIZE) % 2 ^ 64) (fun i => src (n + i)) (len - n)
    else return 0

/-- Copy the bytes `src` to user memory. -/
def copyout (dstva : Nat) (src : Nat → UInt8) (len : Nat) : VmM Int :=
  copyout_loop lay p pagetable len dstva src len

/-- The loop of `copyin`, at most `k` rounds; the result, and what is written to
    `dst`. -/
def copyin_loop : Nat → Nat → Nat → VmM (Int × List UInt8)
  | 0, _, _ => return (0, [])
  | k + 1, srcva, len =>
    if len > 0 then do
      let va0 := PGROUNDDOWN srcva
      let pa0 ← walkaddr lay p pagetable va0
      if pa0 = 0 then return (-1, [])
      else do
        let n := min (PGSIZE - (srcva - va0)) len
        let s ← get
        let (r, bs) ← copyin_loop k ((va0 + PGSIZE) % 2 ^ 64) (len - n)
        return (r, bytesAt s.mem (pa0 + (srcva - va0)) n ++ bs)
    else return (0, [])

/-- Copy from user memory. -/
def copyin (srcva len : Nat) : VmM (Int × List UInt8) := copyin_loop lay p pagetable len srcva len

/-- The inner loop of `copyinstr`: what is written to `dst`, and `got_null`. -/
def copystr (m : Nat → UInt8) : Nat → Nat → List UInt8 × Bool
  | 0, _ => ([], false)
  | n + 1, a =>
    if m a = 0 then ([0], true)
    else (m a :: (copystr m n (a + 1)).1, (copystr m n (a + 1)).2)

/-- The loop of `copyinstr`, at most `k` rounds. -/
def copyinstr_loop : Nat → Nat → Nat → VmM (Int × List UInt8)
  | 0, _, _ => return (-1, [])
  | k + 1, srcva, max =>
    if max > 0 then do
      let va0 := PGROUNDDOWN srcva
      let pa0 ← walkaddr lay p pagetable va0
      if pa0 = 0 then return (-1, [])
      else do
        let n := min (PGSIZE - (srcva - va0)) max
        let s ← get
        let (bs, got_null) := copystr s.mem n (pa0 + (srcva - va0))
        if got_null then return (0, bs)
        else do
          let (r, bs') ← copyinstr_loop k ((va0 + PGSIZE) % 2 ^ 64) (max - n)
          return (r, bs ++ bs')
    else return (-1, [])

/-- Copy a string from user memory. -/
def copyinstr (srcva max : Nat) : VmM (Int × List UInt8) :=
  copyinstr_loop lay p pagetable max srcva max

end Functions

variable {k e n len pagetable : Nat} {b m : Nat → UInt8} {bs bs' : List UInt8}

/-! ## 2. User memory as bytes -/

section Bytes

variable {T Z : Type} {lay : Layout} {sel : T → Nat → Bool} {R : Handles T Z} {F : List Nat}
  {s s' s'' : Phys} {t : T} {p : UserSpace} {a : Nat} {E : Stop → Phys → Prop} {l : Nat} {max : Nat}

/-- The byte at the virtual address `a`, whatever the entry allows. -/
def vbyte (R : Handles T Z) (m : Nat → UInt8) (t : T) (a : Nat) : Option UInt8 :=
  (ent R m t (a / PGSIZE)).map fun e => m (PTE2PA e + a % PGSIZE)

/-- The user may access `a`. -/
def Allows (R : Handles T Z) (m : Nat → UInt8) (t : T) (a : Nat) : Prop :=
  a < MAXVA ∧ ∃ e, ent R m t (a / PGSIZE) = some e ∧ e &&& PTE_U ≠ 0

/-- User memory: the pages below the size, and all that the user can access, own
    their physical page. -/
structure UserMap (lay : Layout) (sel : T → Nat → Bool) (R : Handles T Z) (F : List Nat)
  (p : UserSpace)
    (t : T) (s : Phys) : Prop where
  forest : Forest lay sel R F s
  root : R.root t = some p.pagetable
  below : ∀ v, v < NPAGES → v * PGSIZE < p.sz → sel t v = true
  user : ∀ v e, v < NPAGES → ent R s.mem t v = some e → e &&& PTE_U ≠ 0 → sel t v = true

/-- The bytes `b 0 .. b (k - 1)` have been written at `a` on, through entries that
    the user may access; pages may have come in where there were none; all else is
    as before. -/
structure Copies (lay : Layout) (sel : T → Nat → Bool) (R : Handles T Z) (F : List Nat) (t : T)
    (a k : Nat) (b : Nat → UInt8) (s s' : Phys) : Prop where
  edit : Edit lay sel R F t
    (fun v => (v < NPAGES → ent R s.mem t v = none) ∨ ∃ i, i < k ∧ (a + i) / PGSIZE = v) s
    (ent R s'.mem t) s'
  old : ∀ v e, v < NPAGES → ent R s.mem t v = some e → ent R s'.mem t v = some e
  new : ∀ v e, v < NPAGES → ent R s.mem t v = none → ent R s'.mem t v = some e →
    sel t v = true ∧ e &&& PTE_U ≠ 0
  kept : ∀ x c, x < MAXVA → sel t (x / PGSIZE) = true → x < a ∨ a + k ≤ x →
    vbyte R s.mem t x = some c →
    vbyte R s'.mem t x = some c
  wrote : ∀ i, i < k → Allows R s'.mem t (a + i) ∧ vbyte R s'.mem t (a + i) = some (b i)
  /-- The kernel and the trampoline. -/
  text : SameBelow lay s s'

theorem UserMap.copies (h : UserMap lay sel R F p t s)
    (hc : Copies lay sel R F t a k b s s') : UserMap lay sel R F p t s' where
  forest := hc.edit.forest
  root := h.root
  below := h.below
  user := by
    intro v e hv he hu
    cases hold : ent R s.mem t v with
    | none => exact (hc.new v e hv hold he).1
    | some e' =>
      obtain rfl : e' = e := Option.some.inj ((hc.old v e' hv hold).symm.trans he)
      exact h.user v e' hv hold hu

theorem Copies.allows {x : Nat} (h : Copies lay sel R F t a k b s s')
    (hx : Allows R s.mem t x) : Allows R s'.mem t x := by
  obtain ⟨hlt, e, he, hu⟩ := hx
  exact ⟨hlt, e, h.old _ e (div_lt hlt) he, hu⟩

/-- First one range, then the next. -/
theorem Copies.trans (hs : UserMap lay sel R F p t s) (h : Copies lay sel R F t a k b s s')
    (h' : Copies lay sel R F t (a + k) l (fun i => b (k + i)) s' s'') :
    Copies lay sel R F t a (k + l) b s s'' := by
  refine ⟨?_, fun v e hv he => h'.old v e hv (h.old v e hv he), fun v e hv hnone he => ?_,
    fun x c hx hsel hout hb => ?_, fun i hi => ?_, h.text.trans h'.text⟩
  · refine (h.edit.weaken fun v hv => hv.imp_right fun hc => ?_).trans (h'.edit.weaken fun v hv =>
      hv.imp (fun hc hlt => ?_) fun hc => ?_)
    · obtain ⟨i, hi, hv⟩ := hc
      exact ⟨i, by omega, hv⟩
    · -- what is not mapped now was not mapped before
      cases hold : ent R s.mem t v with
      | none => rfl
      | some e =>
        rw [h.old v e hlt hold] at hc
        cases hc hlt
    · obtain ⟨i, hi, hv⟩ := hc
      exact ⟨k + i, by omega, by rw [← Nat.add_assoc]; exact hv⟩
  · cases hmid : ent R s'.mem t v with
    | none => exact h'.new v e hv hmid he
    | some e' =>
      obtain rfl : e' = e := Option.some.inj ((h'.old v e' hv hmid).symm.trans he)
      exact h.new v e' hv hnone hmid
  · exact h'.kept x c hx hsel (by omega) (h.kept x c hx hsel (by omega) hb)
  · by_cases hk : i < k
    · obtain ⟨hallow, hb⟩ := h.wrote i hk
      obtain ⟨hlt, e, he, hu⟩ := hallow
      have hsel := (hs.copies h).user _ e (div_lt hlt) he hu
      exact ⟨h'.allows ⟨hlt, e, he, hu⟩, h'.kept _ _ hlt hsel (by omega) hb⟩
    · have := h'.wrote (i - k) (by omega)
      rwa [Nat.add_assoc, Nat.add_sub_cancel' (by omega)] at this

/-- Pages may have come in where there were none; nothing is written. -/
def Comes (lay : Layout) (sel : T → Nat → Bool) (R : Handles T Z) (F : List Nat) (t : T)
    (s s' : Phys) : Prop :=
  Copies lay sel R F t 0 0 (fun _ => 0) s s'

/-- Pages have come in, nothing is written. -/
theorem Comes.of_edit {V : Nat → Prop} {M : Nat → Option Nat} (hedit : Edit lay sel R F t V s M s')
    (hV : ∀ v, V v → v < NPAGES → ent R s.mem t v = none)
    (hold : ∀ v e, v < NPAGES → ent R s.mem t v = some e → M v = some e)
    (hnew : ∀ v e, v < NPAGES → ent R s.mem t v = none → M v = some e →
      sel t v = true ∧ e &&& PTE_U ≠ 0) (htext : SameBelow lay s s') :
    Comes lay sel R F t s s' := by
  have hold' : ∀ v e, v < NPAGES → ent R s.mem t v = some e → ent R s'.mem t v = some e :=
      fun v e hv he =>
    (hedit.entries v hv).trans (hold v e hv he)
  refine ⟨(hedit.weaken fun v hv => .inl (hV v hv)).congr hedit.entries, hold',
    fun v e hv hnone he => hnew v e hv hnone ((hedit.entries v hv).symm.trans he),
    fun x c hx hsel _ hb => ?_, fun i hi => absurd hi (not_lt_zero i), htext⟩
  cases he : ent R s.mem t (x / PGSIZE) with
  | none =>
    rw [vbyte, he] at hb
    cases hb
  | some e =>
    have hnot : ¬ V (x / PGSIZE) := fun hc => by
      rw [hV _ hc (div_lt hx)] at he
      cases he
    have hpage :=
      hedit.keeps.page (.leaf t (x / PGSIZE)) _ (fun _ => hnot) (own_leaf (div_lt hx) hsel he)
    have hoff : x % PGSIZE < PGSIZE := mod_lt _ (by decide)
    rw [vbyte, he] at hb
    rw [vbyte, hold' _ e (div_lt hx) he, ← hb, Option.map_some, Option.map_some,
      hpage _ (le_add_right _ _) (by omega)]

theorem Comes.refl (h : Forest lay sel R F s) : Comes lay sel R F t s s := by
  refine .of_edit (V := fun _ => False) (.refl h) (fun _ hc => hc.elim) (fun _ _ _ he => he)
    (fun v e _ hnone he => ?_) fun _ _ => rfl
  rw [hnone] at he
  cases he

/-- Where nothing is written does not matter. -/
theorem Comes.copies (h : Comes lay sel R F t s s') : Copies lay sel R F t a 0 b s s' where
  edit := (Copies.edit h).weaken fun _ hv => hv.imp_right fun hc =>
    absurd hc.choose_spec.1 (not_lt_zero _)
  old := Copies.old h
  new := Copies.new h
  kept := fun x c hx hsel _ => Copies.kept h x c hx hsel (.inr (zero_le x))
  wrote := fun i hi => absurd hi (not_lt_zero i)
  text := Copies.text h

/-- Pages come in, then a range is written. -/
theorem Copies.after (hs : UserMap lay sel R F p t s) (h : Comes lay sel R F t s s')
    (h' : Copies lay sel R F t a l b s' s'') : Copies lay sel R F t a l b s s'' := by
  have hb : (fun i => b (0 + i)) = b := funext fun i => by rw [zero_add]
  have htrans := Copies.trans (l := l) (b := b) hs (Comes.copies (a := a) h) (by rwa [add_zero, hb])
  rwa [zero_add] at htrans

/-- Writes to the page of an entry that owns it. -/
theorem Forest.write_leaf {v : Nat} (h : Forest lay sel R F s) (hv : v < NPAGES)
    (hsel : sel t v = true) (he : ent R s.mem t v = some e)
    (hm : ∀ x, x % PGSIZE = 0 → x ≠ PTE2PA e → SamePage s.mem m x) :
    Edit lay sel R F t (· = v) s (ent R s.mem t) { s with mem := m } := by
  have hleaf := own_leaf hv hsel he
  have hother : ∀ o pg, o ≠ .leaf t v → own sel R s.mem o = some pg → SamePage s.mem m pg := by
    intro o pg hne ho
    refine hm pg (h.owns.used_of_own ho).1.1 fun hc => hne ?_
    rw [hc] at ho
    exact h.owns.inj ho hleaf
  have hheap : Heap lay { s with mem := m } := ⟨h.heap.nodup, h.heap.page, h.heap.free, h.heap.one⟩
  obtain ⟨hf, hown⟩ := h.change
    (fun u r n pg hr hn => hother (.node u n) pg (by simp) ((own_node hr).trans hn)) hheap h.owns
  refine ⟨hf, fun w _ => ?_, fun n pg hn => (hown _).trans hn,
    fun hlow i hi => (hown _).trans (hlow i hi), fun o _ => hown o,
    fun o pg ho hpg => hother o pg ?_ hpg, fun pg hpg => ?_⟩
  · exact ent_congr (fun r n pg hr hn => hother (.node t n) pg (by simp) ((own_node hr).trans hn)) w
  · rintro rfl
    exact ho rfl rfl
  · refine hm pg (h.owns.used_of_mem hpg).1.1 fun hc => ?_
    rw [hc] at hpg
    exact h.owns.apart hleaf hpg

theorem same_page {i : Nat} (ha : a < MAXVA) (hn : a % PGSIZE + n ≤ PGSIZE) (hi : i < n) :
    (a + i) / PGSIZE = a / PGSIZE ∧ (a + i) % PGSIZE = a % PGSIZE + i ∧ a + i < MAXVA := by
  have hmax : MAXVA = 274877906944 := rfl
  rw [PGSIZE_eq] at hn ⊢
  omega

/-- `memmove` into one page of user memory. -/
theorem Copies.move (hs : UserMap lay sel R F p t s) (ha : a < MAXVA)
    (he : ent R s.mem t (a / PGSIZE) = some e) (hu : e &&& PTE_U ≠ 0) (hpos : 0 < n)
    (hn : a % PGSIZE + n ≤ PGSIZE) :
    Copies lay sel R F t a n b s
      { s with mem := Bytes.copy s.mem (PTE2PA e + a % PGSIZE) n b } := by
  have hsel := hs.user _ e (div_lt ha) he hu
  have hleaf := own_leaf (div_lt ha) hsel he
  have hal := (hs.forest.owns.used_of_own hleaf).1.1
  have hedit := hs.forest.write_leaf (m := Bytes.copy s.mem (PTE2PA e + a % PGSIZE) n b) (div_lt ha)
    hsel he fun x hx hne y h1 h2 => by
      rw [PGSIZE_eq] at hx hal hn h2 ⊢
      exact Bytes.copy_out (by omega)
  have hent : ∀ v, v < NPAGES →
      ent R (Bytes.copy s.mem (PTE2PA e + a % PGSIZE) n b) t v = ent R s.mem t v := hedit.entries
  refine ⟨?_, fun v e' hv he' => (hent v hv).trans he', fun v e' hv hnone he' => ?_,
    fun x c hx hsx hout hb => ?_, fun i hi => ?_, fun x hx => ?_⟩
  · exact (hedit.weaken fun v hv => .inr ⟨0, hpos, hv.symm⟩).congr hent
  · rw [hent v hv, hnone] at he'
    cases he'
  · unfold vbyte at hb ⊢
    rw [hent _ (div_lt hx)]
    cases hx' : ent R s.mem t (x / PGSIZE) with
    | none =>
      rw [hx'] at hb
      cases hb
    | some e' =>
      rw [hx', Option.map_some] at hb
      rw [Option.map_some, ← hb]
      -- another part of the same page, or another page
      have hleaf' := own_leaf (div_lt hx) hsx hx'
      have hal' := (hs.forest.owns.used_of_own hleaf').1.1
      by_cases hsame : x / PGSIZE = a / PGSIZE
      · rw [hsame, he] at hx'
        cases hx'
        refine congrArg some (Bytes.copy_out ?_)
        rw [PGSIZE_eq] at hsame ⊢
        omega
      · have hne : PTE2PA e' ≠ PTE2PA e := fun hc => hsame (by
          rw [hc] at hleaf'
          exact (Owner.leaf.inj (hs.forest.owns.inj hleaf' hleaf)).2)
        refine congrArg some (Bytes.copy_out ?_)
        rw [PGSIZE_eq] at hal hal' hn ⊢
        omega
  · obtain ⟨hdiv, hmod, hlt⟩ := same_page ha hn hi
    have hent' := (hent _ (div_lt ha)).trans he
    refine ⟨⟨hlt, e, by rw [hdiv]; exact hent', hu⟩, ?_⟩
    unfold vbyte
    rw [hdiv, hent', Option.map_some, hmod]
    refine congrArg some ((Bytes.copy_in (by omega) (by omega)).trans (congrArg b ?_))
    omega
  · have hge := (hs.forest.owns.used_of_own hleaf).1.2.1
    exact Bytes.copy_out (by omega)

/-! ## 3. `walkaddr` -/

/-- The page of `a` is there for the user, or can come in on demand. -/
def Admits (R : Handles T Z) (p : UserSpace) (s : Phys) (t : T) (a : Nat) : Prop :=
  Allows R s.mem t a ∨ a < MAXVA ∧ ent R s.mem t (a / PGSIZE) = none ∧ PGROUNDDOWN a < p.sz ∧
    PGROUNDUP p.sp ≤ PGROUNDDOWN a ∧ missing s.mem p.pagetable (PGROUNDDOWN a) < s.freelist.length

theorem PGROUNDDOWN_div (a : Nat) : PGROUNDDOWN a / PGSIZE = a / PGSIZE := page_div _

theorem PGROUNDDOWN_lt : PGROUNDDOWN a < MAXVA ↔ a < MAXVA := by
  have hmax : MAXVA = 274877906944 := rfl
  unfold PGROUNDDOWN
  rw [hmax, PGSIZE_eq]
  omega

theorem valid_of_entry {r v : Nat} (h : entry m r v = some e) : e &&& PTE_V ≠ 0 := by
  unfold entry lookup entryAt at h
  obtain ⟨pg, -, hv⟩ := Option.bind_eq_some_iff.mp h
  unfold validEntry at hv
  split at hv
  · next hval =>
    rw [← Option.some.inj hv]
    exact valid_iff.mp hval
  · cases hv

theorem user_leafEntry (pa : Nat) : leafEntry pa userPerm &&& PTE_U ≠ 0 := by
  have hflags := @PTE_FLAGS_leafEntry pa userPerm (by decide)
  have hmask : leafEntry pa userPerm &&& PTE_U = PTE_FLAGS (leafEntry pa userPerm) &&& PTE_U := by
    unfold PTE_FLAGS
    rw [Nat.and_assoc]
    rfl
  rw [hmask, hflags]
  decide

/-- `walkaddr` finds the page of an address that the user may access, maps one on
    demand, or refuses. -/
theorem wp_walkaddr [DecidableEq T] (hlay : lay.Ok) (h : UserMap lay sel R F p t s) :
    wp (walkaddr lay p p.pagetable (PGROUNDDOWN a))
      (fun pa s' => Comes lay sel R F t s s' ∧ (Allows R s.mem t a → s' = s) ∧
        (pa = 0 ∧ ¬ Admits R p s' t a ∨
          pa ≠ 0 ∧ a < MAXVA ∧
          ∃ e, ent R s'.mem t (a / PGSIZE) = some e ∧ e &&& PTE_U ≠ 0 ∧ PTE2PA e = pa)) E s := by
  have hrefl : Comes lay sel R F t s s := .refl h.forest
  by_cases ha : a < MAXVA
  case neg =>
    have hge : PGROUNDDOWN a ≥ MAXVA := not_lt.mp fun hc => ha (PGROUNDDOWN_lt.mp hc)
    rw [walkaddr, if_pos hge]
    exact ⟨hrefl, fun _ => rfl, .inl ⟨rfl, fun hc => hc.elim (fun hc => ha hc.1) fun hc => ha hc.1⟩⟩
  have hlt := PGROUNDDOWN_lt.mpr ha
  cases hent : ent R s.mem t (a / PGSIZE) with
  | none =>
    have hal : PGROUNDDOWN a % PGSIZE = 0 := Nat.mul_mod_left _ _
    have hhole := wp_walkaddr_hole (E := E) (p := p) hlay h.forest h.root hlt hal
    rw [PGROUNDDOWN_div] at hhole
    have hsel : PGROUNDDOWN a < p.sz → sel t (a / PGSIZE) = true :=
      fun hc => h.below _ (div_lt ha) hc
    have hno : ∀ s' : Phys, Allows R s.mem t a → s' = s := by
      rintro s' ⟨-, e, he, -⟩
      rw [hent] at he
      cases he
    refine ((hhole hsel hent).and (wp_walkaddr_below hlay h.forest h.root hal)).mono ?_
      fun _ _ he => he.1
    rintro pa s' ⟨⟨hpa, hadm, hhead, -, hgets⟩ | ⟨rfl, -, hadm, hstays⟩, htext⟩
    · have hpage : isPage lay pa := h.forest.heap.page pa (mem_of_mem_head? hhead)
      have hself : mapped (ent R s.mem t) (a / PGSIZE) 1 pa userPerm (a / PGSIZE) =
          some (leafEntry pa userPerm) := by
        rw [mapped, if_pos (by omega), Nat.sub_self, Nat.zero_mul, Nat.add_zero,
          Nat.mod_eq_of_lt hpage.lt]
      have hU := user_leafEntry pa
      have hgets' : Edit lay sel R F t (· = a / PGSIZE) s
          (mapped (ent R s.mem t) (a / PGSIZE) 1 pa userPerm) s' := by
        unfold Gets at hgets
        rwa [PGROUNDDOWN_div] at hgets
      refine ⟨.of_edit hgets' ?_ ?_ ?_ htext, hno s',
        .inr ⟨hpa, ha, _, (hgets'.entries _ (div_lt ha)).trans hself, hU, ?_⟩⟩
      · rintro v rfl -
        exact hent
      · intro v e hv he
        rw [mapped, if_neg, he]
        intro hc
        obtain rfl : v = a / PGSIZE := by omega
        rw [hent] at he
        cases he
      · intro v e hv hnone he
        by_cases hva : v = a / PGSIZE
        · subst hva
          rw [hself] at he
          rw [← Option.some.inj he]
          exact ⟨hsel hadm.1, hU⟩
        · rw [mapped, if_neg (by omega), hnone] at he
          cases he
      · rw [PTE2PA_leafEntry (by decide) hpage.lt]
        exact Nat.div_mul_cancel (Nat.dvd_of_mod_eq_zero hpage.1)
    · refine ⟨.of_edit hstays (fun _ hc => hc.elim) (fun _ _ _ he => he) (fun v e _ hnone he => ?_)
        htext, hno s', .inl ⟨rfl, ?_⟩⟩
      · rw [hnone] at he
        cases he
      · rintro (⟨-, e, he, -⟩ | ⟨-, -, hc⟩)
        · rw [Edit.entries hstays _ (div_lt ha), hent] at he
          cases he
        · exact hadm hc
  | some e =>
    rw [walkaddr, if_neg (by omega)]
    have hroot := ent_of_root (m := s.mem) (v := a / PGSIZE) h.root
    rw [← PGROUNDDOWN_div a] at hroot
    refine wp_walk_entry hlt (fun hnone => ?_) fun e' he' => ?_
    · rw [← hroot, PGROUNDDOWN_div, hent] at hnone
      cases hnone
    · have hval := valid_of_entry he'
      rw [← hroot, PGROUNDDOWN_div, hent] at he'
      cases he'
      rw [if_neg hval]
      by_cases hu : e &&& PTE_U = 0
      · rw [if_pos hu]
        refine ⟨hrefl, fun _ => rfl, .inl ⟨rfl, ?_⟩⟩
        rintro (⟨-, e', he', hu'⟩ | ⟨-, hc, -⟩)
        · rw [hent] at he'
          cases he'
          exact hu' hu
        · rw [hent] at hc
          cases hc
      · rw [if_neg hu]
        have hown := own_leaf (div_lt ha) (h.user _ e (div_lt ha) hent hu) hent
        exact ⟨hrefl, fun _ => rfl,
          .inr ⟨(h.forest.owns.used_of_own hown).1.pos hlay, ha, e, hent, hu, rfl⟩⟩

/-! ## 4. The loops -/

theorem sub_PGROUNDDOWN (a : Nat) : a - PGROUNDDOWN a = a % PGSIZE := by
  unfold PGROUNDDOWN
  rw [PGSIZE_eq]
  omega

/-- The next page, if the range goes on there. -/
theorem next_page (ha : a < MAXVA) (hn : n = min (PGSIZE - a % PGSIZE) len) (hlt : n < len) :
    (PGROUNDDOWN a + PGSIZE) % 2 ^ 64 = a + n := by
  unfold MAXVA at ha
  unfold PGROUNDDOWN
  rw [PGSIZE_eq] at hn ⊢
  omega

theorem chunk (hlen : 0 < len) (hn : n = min (PGSIZE - a % PGSIZE) len) :
    0 < n ∧ n ≤ len ∧ a % PGSIZE + n ≤ PGSIZE := by
  rw [PGSIZE_eq] at hn ⊢
  omega

theorem copyout_loop_zero (k : Nat) (b : Nat → UInt8) :
    copyout_loop lay p pagetable k a b 0 = pure 0 := by
  cases k with
  | zero => rfl
  | succ k => exact if_neg (lt_irrefl 0)

/-- `copyout` writes up to the first byte that the user may not access. -/
theorem wp_copyout_loop [DecidableEq T] (hlay : lay.Ok) (h : UserMap lay sel R F p t s)
    (hk : len ≤ k) :
    wp (copyout_loop lay p p.pagetable k a b len) (fun r s' => ∃ n, Copies lay sel R F t a n b s
        s' ∧ (r = 0 ∧ n = len ∨ r = -1 ∧ n < len ∧ ¬ Admits R p s' t (a + n))) E s := by
  -- on the rounds, one page each
  induction k generalizing a b len s with
  | zero => exact ⟨0, (Comes.refl h.forest).copies, .inl ⟨rfl, by omega⟩⟩
  | succ k ih =>
    rw [copyout_loop]
    by_cases hlen : len > 0
    case neg =>
      rw [if_neg hlen]
      exact ⟨0, (Comes.refl h.forest).copies, .inl ⟨rfl, by omega⟩⟩
    rw [if_pos hlen]
    refine (wp_walkaddr hlay h).seq ?_
    rintro pa s1 ⟨hcome, -, ⟨rfl, hno⟩ | ⟨hpa, ha, e, he, hu, rfl⟩⟩
    · rw [if_pos rfl]
      exact ⟨0, hcome.copies, .inr ⟨rfl, hlen, hno⟩⟩
    rw [if_neg hpa, sub_PGROUNDDOWN]
    generalize hn : min (PGSIZE - a % PGSIZE) len = n
    obtain ⟨hpos, hle, hfit⟩ := chunk hlen hn.symm
    have hmove := Copies.move (b := b) (h.copies hcome) ha he hu hpos hfit
    have hstep := Copies.after h hcome hmove
    rw [wp_bind, wp_memmove]
    by_cases hrest : n < len
    · rw [next_page ha hn.symm hrest]
      refine (ih (h.copies hstep) (by omega)).post ?_
      rintro r s' ⟨n', hcopy, hr⟩
      refine ⟨n + n', hstep.trans h hcopy, hr.imp (fun hc => ⟨hc.1, by omega⟩) fun hc =>
        ⟨hc.1, by omega, ?_⟩⟩
      rw [← Nat.add_assoc]
      exact hc.2.2
    · -- the last page
      obtain rfl : n = len := by omega
      rw [Nat.sub_self, copyout_loop_zero]
      exact ⟨n, hstep, .inl ⟨rfl, rfl⟩⟩

/-- The user may access the bytes `bs` at `a` on. -/
def Shows (R : Handles T Z) (m : Nat → UInt8) (t : T) (a : Nat) (bs : List UInt8) : Prop :=
  ∀ i c, bs[i]? = some c → Allows R m t (a + i) ∧ vbyte R m t (a + i) = some c

theorem Shows.append (h : Shows R m t a bs)
    (h' : Shows R m t (a + bs.length) bs') : Shows R m t a (bs ++ bs') := by
  intro i c hc
  rw [getElem?_append] at hc
  split at hc
  · exact h i c hc
  · have := h' (i - bs.length) c hc
    rwa [Nat.add_assoc, Nat.add_sub_cancel' (by omega)] at this

theorem Shows.come (hs : UserMap lay sel R F p t s) (hc : Comes lay sel R F t s s')
    (h : Shows R s.mem t a bs) : Shows R s'.mem t a bs := by
  intro i c hi
  obtain ⟨⟨hlt, e, he, hu⟩, hb⟩ := h i c hi
  exact ⟨Copies.allows hc ⟨hlt, e, he, hu⟩,
    Copies.kept hc _ c hlt (hs.user _ e (div_lt hlt) he hu) (.inr (zero_le _)) hb⟩

/-- The bytes of one page of user memory. -/
theorem shows_page (ha : a < MAXVA) (he : ent R m t (a / PGSIZE) = some e) (hu : e &&& PTE_U ≠ 0)
    (hn : a % PGSIZE + n ≤ PGSIZE) : Shows R m t a (bytesAt m (PTE2PA e + a % PGSIZE) n) := by
  intro i c hc
  unfold bytesAt at hc
  rw [getElem?_map, Option.map_eq_some_iff] at hc
  obtain ⟨j, hj, rfl⟩ := hc
  obtain ⟨hi, rfl⟩ : i < n ∧ i = j := by
    rw [getElem?_eq_some_iff] at hj
    obtain ⟨hi, hj⟩ := hj
    rw [getElem_range] at hj
    exact ⟨by simpa using hi, hj⟩
  obtain ⟨hdiv, hmod, hlt⟩ := same_page ha hn hi
  refine ⟨⟨hlt, e, by rw [hdiv]; exact he, hu⟩, ?_⟩
  rw [vbyte, hdiv, he, hmod, Option.map_some, add_assoc]

theorem length_bytesAt (m : Nat → UInt8) (a n : Nat) : (bytesAt m a n).length = n := by
  unfold bytesAt
  rw [length_map, length_range]

theorem copyin_loop_zero (k : Nat) : copyin_loop lay p pagetable k a 0 = pure (0, []) := by
  cases k with
  | zero => rfl
  | succ k => exact if_neg (lt_irrefl 0)

/-- A copy from user memory has read `bs` at `a`. -/
structure Fetched (lay : Layout) (sel : T → Nat → Bool) (R : Handles T Z) (F : List Nat) (t : T)
  (a : Nat)
    (bs : List UInt8) (s s' : Phys) : Prop where
  come : Comes lay sel R F t s s'
  bytes : Shows R s'.mem t a bs

theorem Fetched.nil (h : Comes lay sel R F t s s') : Fetched lay sel R F t a [] s s' :=
  ⟨h, fun i c hc => by cases hc⟩

/-- Some bytes of one page, then those of the pages after it. -/
theorem Fetched.append (hs : UserMap lay sel R F p t s) (h : Fetched lay sel R F t a bs s s')
    (h' : Fetched lay sel R F t (a + bs.length) bs' s' s'') :
    Fetched lay sel R F t a (bs ++ bs') s s'' :=
  ⟨h'.come.after hs h.come, .append (.come (hs.copies h.come) h'.come h.bytes) h'.bytes⟩

/-- `copyin` reads up to the first byte that the user may not access; if there is
    none, no page comes in. -/
theorem wp_copyin_loop [DecidableEq T] (hlay : lay.Ok) (h : UserMap lay sel R F p t s)
    (hk : len ≤ k) :
    wp (copyin_loop lay p p.pagetable k a len) (fun r s' => Fetched lay sel R F t a r.2 s s' ∧
      (r.1 = 0 ∧ r.2.length = len ∨
        r.1 = -1 ∧ r.2.length < len ∧ ¬ Admits R p s' t (a + r.2.length)) ∧
      ((∀ i, i < len → Allows R s.mem t (a + i)) → s' = s)) E s := by
  -- on the rounds, one page each
  induction k generalizing a len s with
  | zero => exact ⟨.nil (.refl h.forest), .inl ⟨rfl, by rw [length_nil]; omega⟩, fun _ => rfl⟩
  | succ k ih =>
    rw [copyin_loop]
    by_cases hlen : len > 0
    case neg =>
      rw [if_neg hlen]
      exact ⟨.nil (.refl h.forest), .inl ⟨rfl, by rw [length_nil]; omega⟩, fun _ => rfl⟩
    rw [if_pos hlen]
    refine (wp_walkaddr hlay h).seq ?_
    rintro pa s1 ⟨hcome, hsame, ⟨rfl, hno⟩ | ⟨hpa, ha, e, he, hu, rfl⟩⟩
    · rw [if_pos rfl]
      exact ⟨.nil hcome, .inr ⟨rfl, hlen, hno⟩, fun hall => hsame (hall 0 hlen)⟩
    rw [if_neg hpa, sub_PGROUNDDOWN]
    generalize hn : min (PGSIZE - a % PGSIZE) len = n
    obtain ⟨hpos, hle, hfit⟩ := chunk hlen hn.symm
    have hfirst : Fetched lay sel R F t a (bytesAt s1.mem (PTE2PA e + a % PGSIZE) n) s s1 :=
      ⟨hcome, shows_page ha he hu hfit⟩
    have hlength := length_bytesAt s1.mem (PTE2PA e + a % PGSIZE) n
    rw [wp_bind, wp_get, wp_bind]
    by_cases hrest : n < len
    · rw [next_page ha hn.symm hrest]
      refine (ih (h.copies hcome) (by omega)).post ?_
      rintro ⟨r, bs⟩ s' ⟨hbs, hr, hstay⟩
      refine ⟨hfirst.append h (by rw [hlength]; exact hbs), ?_, fun hall => ?_⟩
      · dsimp only at hr ⊢
        rw [length_append, hlength, ← Nat.add_assoc]
        exact hr.imp (fun hc => ⟨hc.1, by omega⟩) fun hc => ⟨hc.1, by omega, hc.2.2⟩
      · have hs1 := hsame (hall 0 hlen)
        rw [hs1] at hstay
        refine hstay fun i hi => ?_
        rw [Nat.add_assoc]
        exact hall (n + i) (by omega)
    · -- the last page
      obtain rfl : n = len := by omega
      rw [Nat.sub_self, copyin_loop_zero, wp_pure, wp_pure, append_nil]
      exact ⟨hfirst, .inl ⟨rfl, hlength⟩, fun hall => hsame (hall 0 hlen)⟩

/-- A string ends with its only NUL. -/
def Terminated (bs : List UInt8) : Prop := ∃ bs₀, bs = bs₀ ++ [0] ∧ 0 ∉ bs₀

theorem Terminated.append (h : Terminated bs') (hno : 0 ∉ bs) : Terminated (bs ++ bs') := by
  obtain ⟨bs0, rfl, h0⟩ := h
  refine ⟨bs ++ bs0, (append_assoc ..).symm, ?_⟩
  rw [mem_append, not_or]
  exact ⟨hno, h0⟩

theorem bytesAt_succ (m : Nat → UInt8) (a n : Nat) :
    bytesAt m a (n + 1) = m a :: bytesAt m (a + 1) n := by
  unfold bytesAt
  rw [range_succ_eq_map, map_cons, map_map, add_zero]
  congr 1
  refine map_congr_left fun i _ => ?_
  rw [Function.comp_apply, succ_eq_add_one, add_comm i 1, ← add_assoc]

/-- The inner loop copies up to the first NUL. -/
theorem copystr_spec (m : Nat → UInt8) (n a : Nat) :
    (copystr m n a).1 = bytesAt m a (copystr m n a).1.length ∧ (copystr m n a).1.length ≤ n ∧
    ((copystr m n a).2 = true → Terminated (copystr m n a).1) ∧
    ((copystr m n a).2 = false → (copystr m n a).1.length = n ∧ 0 ∉ (copystr m n a).1) := by
  induction n generalizing a with
  | zero => exact ⟨rfl, le_rfl, fun hc => (by cases hc), fun _ => ⟨rfl, not_mem_nil⟩⟩
  | succ n ih =>
    obtain ⟨hbytes, hlen, hnull, hnone⟩ := ih (a + 1)
    rw [copystr]
    by_cases h0 : m a = 0
    · rw [if_pos h0]
      refine ⟨?_, by simp, fun _ => ⟨[], rfl, not_mem_nil⟩, fun hc => by cases hc⟩
      rw [length_singleton, bytesAt_succ, h0]
      rfl
    · rw [if_neg h0]
      dsimp only
      refine ⟨?_, by rw [length_cons]; omega, fun hgot => ?_, fun hgot => ?_⟩
      · rw [length_cons, bytesAt_succ, ← hbytes]
      · obtain ⟨bs0, hbs, hno⟩ := hnull hgot
        refine ⟨m a :: bs0, by rw [hbs, cons_append], ?_⟩
        rw [mem_cons, not_or]
        exact ⟨fun hc => h0 hc.symm, hno⟩
      · obtain ⟨hn, hno⟩ := hnone hgot
        rw [length_cons, hn, mem_cons, not_or]
        exact ⟨rfl, fun hc => h0 hc.symm, hno⟩

theorem copyinstr_loop_zero (k : Nat) : copyinstr_loop lay p pagetable k a 0 = pure (-1, []) := by
  cases k with
  | zero => rfl
  | succ k => exact if_neg (lt_irrefl 0)

/-- What `copyinstr` comes to: a whole string, or no NUL within `max` bytes and up
    to the first one that the user may not access. -/
def Strung (R : Handles T Z) (p : UserSpace) (t : T) (a max : Nat) (r : Int × List UInt8)
    (s' : Phys) : Prop :=
  r.2.length ≤ max ∧ (r.1 = 0 ∧ Terminated r.2 ∨
    r.1 = -1 ∧ 0 ∉ r.2 ∧ (r.2.length < max → ¬ Admits R p s' t (a + r.2.length)))

theorem wp_copyinstr_loop [DecidableEq T] (hlay : lay.Ok) (h : UserMap lay sel R F p t s)
    (hk : max ≤ k) :
    wp (copyinstr_loop lay p p.pagetable k a max) (fun r s' => Fetched lay sel R F t a r.2 s s' ∧
      Strung R p t a max r s') E s := by
  -- on the rounds, one page each
  induction k generalizing a max s with
  | zero =>
    exact ⟨.nil (.refl h.forest), Nat.zero_le _,
      .inr ⟨rfl, not_mem_nil, fun hc => absurd hc (by omega)⟩⟩
  | succ k ih =>
    rw [copyinstr_loop]
    by_cases hmax : max > 0
    case neg =>
      rw [if_neg hmax]
      exact ⟨.nil (.refl h.forest), Nat.zero_le _,
        .inr ⟨rfl, not_mem_nil, fun hc => absurd hc (by omega)⟩⟩
    rw [if_pos hmax]
    refine (wp_walkaddr hlay h).seq ?_
    rintro pa s1 ⟨hcome, -, ⟨rfl, hno⟩ | ⟨hpa, ha, e, he, hu, rfl⟩⟩
    · rw [if_pos rfl]
      exact ⟨.nil hcome, Nat.zero_le _, .inr ⟨rfl, not_mem_nil, fun _ => hno⟩⟩
    rw [if_neg hpa, sub_PGROUNDDOWN]
    generalize hn : min (PGSIZE - a % PGSIZE) max = n
    obtain ⟨hpos, hle, hfit⟩ := chunk hmax hn.symm
    rw [wp_bind, wp_get]
    obtain ⟨hbytes, hlen, hnull, hnone⟩ := copystr_spec s1.mem n (PTE2PA e + a % PGSIZE)
    generalize copystr s1.mem n (PTE2PA e + a % PGSIZE) = got at *
    obtain ⟨bs, got_null⟩ := got
    dsimp only at *
    have hfirst : Fetched lay sel R F t a bs s s1 := by
      refine ⟨hcome, ?_⟩
      rw [hbytes]
      exact shows_page ha he hu (by omega)
    cases got_null with
    | true => exact ⟨hfirst, by dsimp only; omega, .inl ⟨rfl, hnull rfl⟩⟩
    | false =>
      obtain ⟨hlength, hno⟩ := hnone rfl
      rw [if_neg Bool.false_ne_true, wp_bind]
      by_cases hrest : n < max
      · rw [next_page ha hn.symm hrest]
        refine (ih (h.copies hcome) (by omega)).post ?_
        rintro ⟨r, bs'⟩ s' ⟨hbs, hle', hr⟩
        refine ⟨hfirst.append h (by rw [hlength]; exact hbs), ?_, ?_⟩
        · dsimp only at hle' ⊢
          rw [length_append]
          omega
        · refine hr.imp (fun hc => ⟨hc.1, hc.2.append hno⟩) fun hc => ⟨hc.1, ?_, fun hlt => ?_⟩
          · rw [mem_append, not_or]
            exact ⟨hno, hc.2.1⟩
          · dsimp only at hlt hc ⊢
            rw [length_append, hlength] at hlt ⊢
            rw [← Nat.add_assoc]
            exact hc.2.2 (by omega)
      · -- the last page
        obtain rfl : n = max := by omega
        rw [Nat.sub_self, copyinstr_loop_zero, wp_pure, wp_pure, append_nil]
        exact ⟨hfirst, by dsimp only; omega, .inr ⟨rfl, hno, fun hc => absurd hlength hc.ne⟩⟩

/-! ## The three together -/

/-- A NUL is among the first `max` bytes at `a` that the user may access one after
    the other. -/
def NulWithin (R : Handles T Z) (m : Nat → UInt8) (t : T) (a max : Nat) : Prop :=
  ∃ k, k < max ∧ (∀ i, i ≤ k → Allows R m t (a + i)) ∧ vbyte R m t (a + k) = some 0

theorem Strung.nulWithin_iff {r : Int × List UInt8} (h : Strung R p t a max r s')
    (hb : Shows R s'.mem t a r.2) : r.1 = 0 ↔ NulWithin R s'.mem t a max := by
  obtain ⟨hle, ⟨hr, bs0, hbs, -⟩ | ⟨hr, hno, hstop⟩⟩ := h
  · refine ⟨fun _ => ?_, fun _ => hr⟩
    rw [hbs] at hb hle
    rw [length_append, length_singleton] at hle
    refine ⟨bs0.length, by omega, fun i hi => ?_, ?_⟩
    · have hlt : i < (bs0 ++ [0]).length := by
        rw [length_append, length_singleton]
        omega
      exact (hb i _ (getElem?_eq_getElem hlt)).1
    · refine (hb bs0.length 0 ?_).2
      rw [getElem?_append_right le_rfl, Nat.sub_self]
      rfl
  · refine ⟨fun hc => absurd (hr.symm.trans hc) (by decide), ?_⟩
    rintro ⟨k, hk, hall, hnul⟩
    -- the NUL would have been copied, or lie behind what the user may access
    by_cases hlt : k < r.2.length
    · have := (hb k _ (getElem?_eq_getElem hlt)).2
      rw [hnul] at this
      exact absurd (getElem_mem hlt) (Option.some.inj this ▸ hno)
    · exact absurd (.inl (hall r.2.length (by omega))) (hstop (by omega))

/-- **Copies to and from user memory.**  Take a process whose user pages own their
    physical pages, with any size and any stack pointer, and any address and
    length.

    * `copyout` returns.  It has written the first `n` bytes of `src` at `dstva`, all
      of them through entries with `PTE_U` below `MAXVA`, and no other byte in use
      has changed (`Copies`).  On 0 these are all `len` bytes, and `copyin` of the
      same range then returns them; on -1 the next byte is one that the user may not
      access.
    * `copyin` returns, and has read the bytes at `srcva` up to `len` or up to the
      first one that the user may not access, all of them through such entries.
    * `copyinstr` returns, and has read the bytes up to the first NUL, up to `max` or
      up to the first one that the user may not access; it returns 0 if and only if
      there is a NUL within the first `max` bytes that the user may access, and has
      then copied up to it. -/
theorem user_copies [DecidableEq T] (hlay : lay.Ok) (h : UserMap lay sel R F p t s) :
    (∀ dstva src len, ∃ r s' n, copyout lay p p.pagetable dstva src len s = .ok r s' ∧
      Copies lay sel R F t dstva n src s s' ∧
      (r = 0 ∧ n = len ∧
        copyin lay p p.pagetable dstva len s' = .ok (0, (List.range len).map src) s' ∨
        r = -1 ∧ n < len ∧ ¬ Admits R p s' t (dstva + n))) ∧
    (∀ srcva len, ∃ r bs s', copyin lay p p.pagetable srcva len s = .ok (r, bs) s' ∧
      Comes lay sel R F t s s' ∧ Shows R s'.mem t srcva bs ∧
      (r = 0 ∧ bs.length = len ∨
        r = -1 ∧ bs.length < len ∧ ¬ Admits R p s' t (srcva + bs.length))) ∧
    ∀ srcva max, ∃ r bs s', copyinstr lay p p.pagetable srcva max s = .ok (r, bs) s' ∧
      Comes lay sel R F t s s' ∧ Shows R s'.mem t srcva bs ∧ bs.length ≤ max ∧
      (r = 0 ↔ NulWithin R s'.mem t srcva max) ∧
      (r = 0 ∧ Terminated bs ∨
        r = -1 ∧ 0 ∉ bs ∧ (bs.length < max → ¬ Admits R p s' t (srcva + bs.length))) := by
  refine ⟨fun dstva src len => ?_, fun srcva len => ?_, fun srcva max => ?_⟩
  · obtain ⟨r, s', hrun, n, hcopy, hr⟩ :=
      (wp_copyout_loop (E := fun _ _ => False) (a := dstva) (b := src) hlay h (le_refl len)).returns
    refine ⟨r, s', n, hrun, hcopy, hr.imp_left fun hc => ⟨hc.1, hc.2, ?_⟩⟩
    obtain ⟨-, rfl⟩ := hc
    obtain ⟨⟨r', bs⟩, s'', hrun', hf, hr', hstay⟩ :=
      (wp_copyin_loop (E := fun _ _ => False) (a := dstva) hlay (h.copies hcopy)
        (le_refl n)).returns
    obtain rfl := hstay fun i hi => (hcopy.wrote i hi).1
    have hlen : r' = 0 ∧ bs.length = n :=
      hr'.resolve_right fun hc => hc.2.2 (.inl (hcopy.wrote _ hc.2.1).1)
    have hbs : bs = (range n).map src := by
      refine ext_getElem (by rw [hlen.2, length_map, length_range]) fun i h1 h2 => ?_
      have hb := (hf.bytes i _ (getElem?_eq_getElem h1)).2
      rw [(hcopy.wrote i (by have := hlen.2; omega)).2] at hb
      rw [getElem_map, getElem_range]
      exact (Option.some.inj hb).symm
    rw [hlen.1, hbs] at hrun'
    exact hrun'
  · obtain ⟨⟨r, bs⟩, s', hrun, hf, hr, -⟩ :=
      (wp_copyin_loop (E := fun _ _ => False) (a := srcva) hlay h (le_refl len)).returns
    exact ⟨r, bs, s', hrun, hf.come, hf.bytes, hr⟩
  · obtain ⟨⟨r, bs⟩, s', hrun, hf, hst⟩ :=
      (wp_copyinstr_loop (E := fun _ _ => False) (a := srcva) hlay h (le_refl max)).returns
    exact ⟨r, bs, s', hrun, hf.come, hf.bytes, hst.1, hst.nulWithin_iff hf.bytes, hst.2⟩

end Bytes

/-- A process of three pages with its stack pointer in the second. -/
def threePages : UserSpace := ⟨eightRoot true, 3 * PGSIZE, PGSIZE + 8⟩

/-- The third page comes in for a copy; the last byte of the address space is none
    of the user's. -/
theorem user_copies_three :
    UserMap eightLayout (fun _ _ => true) eightTrees [] threePages true eightPages ∧
    (∃ r s' n,
      copyout eightLayout threePages (eightRoot true) (2 * PGSIZE) (fun _ => 7) 2 eightPages =
        .ok r s' ∧
      Copies eightLayout (fun _ _ => true) eightTrees [] true (2 * PGSIZE) n (fun _ => 7)
        eightPages s' ∧
      (r = 0 ∧ n = 2 ∨ r = -1 ∧ n < 2)) ∧
    ∃ s', copyinstr eightLayout threePages (eightRoot true) (2 ^ 64 - 1) 9 eightPages =
        .ok (-1, []) s' := by
  have hmap : UserMap eightLayout (fun _ _ => true) eightTrees [] threePages true eightPages :=
    ⟨eightPages_forest, rfl, fun _ _ _ => rfl, fun _ _ _ _ _ => rfl⟩
  obtain ⟨hout, -, hstr⟩ := user_copies eightLayout_ok hmap
  refine ⟨hmap, ?_, ?_⟩
  · obtain ⟨r, s', n, hrun, hcopy, hr⟩ := hout (2 * PGSIZE) (fun _ => 7) 2
    exact ⟨r, s', n, hrun, hcopy, hr.imp (fun hc => ⟨hc.1, hc.2.1⟩) fun hc => ⟨hc.1, hc.2.1⟩⟩
  · obtain ⟨r, bs, s', hrun, -, hshow, -, -, hr⟩ := hstr (2 ^ 64 - 1) 9
    -- a byte of the string would lie below `MAXVA`
    have hbs : bs = [] := by
      cases bs with
      | nil => rfl
      | cons b bs =>
        have hlt := (hshow 0 b rfl).1.1
        have hmax : MAXVA = 274877906944 := rfl
        omega
    subst hbs
    have hr' : r = -1 := (hr.resolve_left fun hc => by
      obtain ⟨bs0, he, -⟩ := hc.2
      cases bs0 <;> cases he).1
    subst hr'
    exact ⟨s', hrun⟩

end NoviceKernel.VM
