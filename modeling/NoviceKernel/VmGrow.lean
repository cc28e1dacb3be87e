import NoviceKernel.UserMem
import NoviceKernel.VmCopy

/-! # Growing and shrinking user memory (`vm.c`)

    `uvmalloc` maps zeroed pages from the old size up to the new one, and
    unmaps them again if it runs out of memory; `uvmdealloc` unmaps the pages
    between two sizes.  Both round sizes up to pages, so what they change is the
    pages whose address lies between the sizes (`within`).

    **Key theorem**: `uvmalloc` maps all of them or leaves everything as it was,
    and `uvmdealloc` takes it back (`uvmalloc_grows`). -/

namespace NoviceKernel.VM

open Hoare Ledger Nat

/-! ## Sizes and pages -/

/-- Page `w` begins at or above `lo` and below `hi`. -/
def within (lo hi w : Nat) : Prop := lo ≤ w * PGSIZE ∧ w * PGSIZE < hi

instance (lo hi w : Nat) : Decidable (within lo hi w) := inferInstanceAs (Decidable (_ ∧ _))

theorem PGROUNDUP_eq {a : Nat} (h : a ≤ MAXVA) : PGROUNDUP a = (a + 4095) / 4096 * PGSIZE := by
  unfold MAXVA at h
  unfold PGROUNDUP
  rw [PGSIZE_eq, mod_eq_of_lt (by omega)]

/-- Rounding does not matter for where pages begin. -/
theorem lt_PGROUNDUP {a w : Nat} (h : a ≤ MAXVA) : w * PGSIZE < PGROUNDUP a ↔ w * PGSIZE < a := by
  rw [PGROUNDUP_eq h, PGSIZE_eq]
  omega

theorem within_pages {lo v w : Nat} : within (lo * PGSIZE) (v * PGSIZE) w ↔ lo ≤ w ∧ w < v := by
  unfold within
  rw [PGSIZE_eq]
  omega

theorem within_succ {v hi w : Nat} :
    within ((v + 1) * PGSIZE) hi w ↔ within (v * PGSIZE) hi w ∧ w ≠ v := by
  unfold within
  rw [PGSIZE_eq]
  omega

section Grow

variable {T Z : Type} {lay : Layout} {sel : T → Nat → Bool} {R : Handles T Z} {F : List Nat}
  {s s' s'' : Phys} {t : T} {r oldsz newsz : Nat} {E : Stop → Phys → Prop} {M : Nat → Option Nat}
  {V : Nat → Prop} {c : UInt8} {v pg : Nat}

/-! ## `uvmdealloc` -/

/-- The map without the pages within the two bounds. -/
def without (M : Nat → Option Nat) (lo hi : Nat) : Nat → Option Nat := fun w =>
  if within lo hi w then none else M w

/-- The pages between the sizes go, all else stays. -/
theorem wp_uvmdealloc [DecidableEq T] (h : Forest lay sel R F s) (ht : R.root t = some r)
    (hold : oldsz ≤ MAXVA) (hsel : ∀ w, within newsz oldsz w → sel t w = true) :
    wp (uvmdealloc lay r oldsz newsz) (fun res s' => res = min oldsz newsz ∧
      Edit lay sel R F t (within newsz oldsz) s (without (ent R s.mem t) newsz oldsz) s' ∧
      ∀ n, own sel R s'.mem (.node t n) = own sel R s.mem (.node t n)) E s := by
  -- nothing to unmap
  have hnone : (∀ w, ¬ within newsz oldsz w) →
      Edit lay sel R F t (within newsz oldsz) s (without (ent R s.mem t) newsz oldsz) s ∧
        ∀ n, own sel R s.mem (.node t n) = own sel R s.mem (.node t n) := fun hno =>
    ⟨(Edit.refl h).congr fun w _ => if_neg (hno w), fun _ => rfl⟩
  rw [uvmdealloc]
  by_cases hge : newsz ≥ oldsz
  · rw [if_pos hge]
    exact ⟨(Nat.min_eq_left hge).symm, hnone fun w hw => by unfold within at hw; omega⟩
  have hmin : min oldsz newsz = newsz := Nat.min_eq_right (by omega)
  have hnew : newsz ≤ MAXVA := by omega
  rw [if_neg hge, hmin]
  have hin : ∀ w, within newsz oldsz w ↔ (newsz + 4095) / 4096 ≤ w ∧ w < (oldsz + 4095) / 4096 := by
    intro w
    unfold within
    rw [PGSIZE_eq]
    omega
  by_cases hlt : PGROUNDUP newsz < PGROUNDUP oldsz
  case neg =>
    rw [if_neg hlt]
    refine ⟨rfl, hnone fun w hw => ?_⟩
    rw [PGROUNDUP_eq hnew, PGROUNDUP_eq hold, PGSIZE_eq] at hlt
    rw [hin] at hw
    omega
  rw [if_pos hlt, PGROUNDUP_eq hnew, PGROUNDUP_eq hold, ← Nat.sub_mul, page_div]
  rw [PGROUNDUP_eq hnew, PGROUNDUP_eq hold, PGSIZE_eq] at hlt
  have hsmall : (oldsz + 4095) / 4096 ≤ 2 ^ 26 := by
    unfold MAXVA at hold
    omega
  -- the number of pages passes through an `int`
  have hint : ofInt (toInt ((oldsz + 4095) / 4096 - (newsz + 4095) / 4096)) =
      (oldsz + 4095) / 4096 - (newsz + 4095) / 4096 := by
    unfold ofInt toInt
    rw [if_pos (by omega)]
    omega
  rw [hint]
  refine (wp_uvmunmap_owned h ht (by rw [NPAGES_eq]; omega) fun w h1 h2 => ?_).seq ?_
  · exact hsel w ((hin w).mpr (by omega))
  rintro - s' ⟨hedit, hnodes⟩
  refine ⟨rfl, (hedit.weaken fun w hw => (hin w).mpr (by omega)).congr fun w _ => ?_, hnodes⟩
  unfold without unmapped
  simp only [hin]
  by_cases hw : (newsz + 4095) / 4096 ≤ w ∧ w < (oldsz + 4095) / 4096
  · rw [if_pos hw, if_pos (by omega)]
  · rw [if_neg hw, if_neg (by omega)]

/-! ## `uvmalloc` -/

/-- Zeroed pages for the user have come in within the bounds, all else is as
    before. -/
structure Grown (lay : Layout) (sel : T → Nat → Bool) (R : Handles T Z) (F : List Nat) (t : T)
    (lo hi : Nat) (s s' : Phys) : Prop where
  edit : Edit lay sel R F t (within lo hi) s (ent R s'.mem t) s'
  was : ∀ w, within lo hi w → w < NPAGES ∧ sel t w = true ∧ ent R s.mem t w = none
  new : ∀ w, within lo hi w →
    space R s'.mem t w = some (userPerm ||| PTE_V, List.replicate PGSIZE 0)
  rest : ∀ w, w < NPAGES → ¬ within lo hi w → ent R s'.mem t w = ent R s.mem t w

theorem Grown.done {v : Nat} (h : Forest lay sel R F s) (hv : newsz ≤ v * PGSIZE) :
    Grown lay sel R F t (v * PGSIZE) newsz s s := by
  have hno : ∀ w, ¬ within (v * PGSIZE) newsz w := fun w hw => by
    unfold within at hw
    omega
  exact ⟨.refl h, fun w hw => absurd hw (hno w), fun w hw => absurd hw (hno w), fun _ _ _ => rfl⟩

theorem bytesOf_const {m : Nat → UInt8} {pg : Nat} (h : ∀ i, i < PGSIZE → m (pg + i) = c) :
    bytesOf m pg = List.replicate PGSIZE c := by
  refine List.eq_replicate_iff.mpr ⟨by simp [bytesOf], fun b hb => ?_⟩
  obtain ⟨i, hi, rfl⟩ := List.mem_map.mp hb
  exact h i (List.mem_range.mp hi)

/-- What a page has that was just mapped for the user. -/
theorem space_mapped (hv : v < NPAGES)
    (hpg : isPage lay pg) (hedit : Edit lay sel R F t V s (mapped M v 1 pg userPerm) s')
    (hbytes : ∀ i, i < PGSIZE → s'.mem (pg + i) = c) :
    space R s'.mem t v = some (userPerm ||| PTE_V, List.replicate PGSIZE c) := by
  have hent : ent R s'.mem t v = some (leafEntry pg userPerm) := by
    rw [hedit.entries v hv, mapped, if_pos (by omega), Nat.sub_self, Nat.zero_mul, Nat.add_zero,
      Nat.mod_eq_of_lt hpg.lt]
  have hround : pg / 4096 * 4096 = pg := Nat.div_mul_cancel (Nat.dvd_of_mod_eq_zero hpg.1)
  rw [space_of_some hent, PTE_FLAGS_leafEntry (by decide), PTE2PA_leafEntry (by decide) hpg.lt,
    hround, bytesOf_const hbytes]

/-- One page, then those after it. -/
theorem Grown.cons (hv : v < NPAGES) (hlt : v * PGSIZE < newsz) (hsel : sel t v = true)
    (hnone : ent R s.mem t v = none) (hpg : isPage lay pg)
    (hone : Edit lay sel R F t (· = v) s (mapped (ent R s.mem t) v 1 pg userPerm) s')
    (hbytes : ∀ i, i < PGSIZE → s'.mem (pg + i) = 0)
    (h : Grown lay sel R F t ((v + 1) * PGSIZE) newsz s' s'') :
    Grown lay sel R F t (v * PGSIZE) newsz s s'' := by
  have hself : within (v * PGSIZE) newsz v := ⟨le_rfl, hlt⟩
  have hnext : ∀ w, within (v * PGSIZE) newsz w → w ≠ v → within ((v + 1) * PGSIZE) newsz w :=
      fun w hw hne =>
    within_succ.mpr ⟨hw, hne⟩
  have hback : ∀ w, within ((v + 1) * PGSIZE) newsz w → within (v * PGSIZE) newsz w ∧ w ≠ v :=
      fun w =>
    within_succ.mp
  have hother : ∀ w, w < NPAGES → w ≠ v → ent R s'.mem t w = ent R s.mem t w := by
    intro w hw hne
    rw [hone.entries w hw, mapped, if_neg (by omega)]
  refine ⟨?_, fun w hw => ?_, fun w hw => ?_, fun w hw hout => ?_⟩
  · refine (hone.weaken ?_).trans (h.edit.weaken fun w hw => (hback w hw).1)
    intro w hw
    rw [hw]
    exact hself
  · by_cases hwv : w = v
    · subst hwv
      exact ⟨hv, hsel, hnone⟩
    · obtain ⟨h1, h2, h3⟩ := h.was w (hnext w hw hwv)
      exact ⟨h1, h2, (hother w h1 hwv).symm.trans h3⟩
  · by_cases hwv : w = v
    · -- the rest of the loop leaves the new page alone
      have hb : ¬ within ((v + 1) * PGSIZE) newsz v := fun hb => (hback v hb).2 rfl
      rw [hwv, h.edit.space_self hb (h.rest v hv hb) hv hsel]
      exact space_mapped hv hpg hone hbytes
    · exact h.new w (hnext w hw hwv)
  · have hwv : w ≠ v := by
      intro hc
      rw [hc] at hout
      exact hout hself
    rw [h.rest w hw fun hc => hout (hback w hc).1, hother w hw hwv]

/-- The pages from `lo` up to `v` are taken off again; pages above that were not
    there may have come and gone. -/
def RolledBack (lay : Layout) (sel : T → Nat → Bool) (R : Handles T Z) (F : List Nat) (t : T)
    (lo v : Nat) (s s' : Phys) : Prop :=
  Edit lay sel R F t (fun w => lo ≤ w ∧ (w < NPAGES → w < v ∨ ent R s.mem t w = none)) s
    (without (ent R s.mem t) (lo * PGSIZE) (v * PGSIZE)) s'

/-- The error exits of `uvmalloc`. -/
theorem wp_uvmalloc_err [DecidableEq T] {lo v : Nat} (h : Forest lay sel R F s)
  (ht : R.root t = some r) (hv : v ≤ NPAGES)
    (hsel : ∀ w, lo ≤ w → w < v → sel t w = true) :
    wp (do let _ ← uvmdealloc lay r (v * PGSIZE) (lo * PGSIZE); return 0)
      (fun res s' => res = 0 ∧ RolledBack lay sel R F t lo v s s') E s := by
  have hmax : v * PGSIZE ≤ MAXVA := by
    rw [NPAGES_eq] at hv
    unfold MAXVA
    rw [PGSIZE_eq]
    omega
  refine (wp_uvmdealloc h ht hmax fun w hw => ?_).seq ?_
  · rw [within_pages] at hw
    exact hsel w hw.1 hw.2
  rintro - s' ⟨-, hedit, -⟩
  refine ⟨rfl, hedit.weaken fun w hw => ?_⟩
  rw [within_pages] at hw
  exact ⟨hw.1, fun _ => .inl hw.2⟩

/-- What is rolled back after pages from `v` up to `v'` have come in. -/
theorem RolledBack.of_edit {lo v v' : Nat} (hedit : Edit lay sel R F t V s M s') (hlo : lo ≤ v)
    (hv : v ≤ v') (hV : ∀ w, V w → v ≤ w ∧ ent R s.mem t w = none)
    (hM : ∀ w, w < NPAGES → w < v ∨ v' ≤ w → M w = ent R s.mem t w)
    (hnew : ∀ w, v ≤ w → w < v' → ent R s.mem t w = none)
    (h : RolledBack lay sel R F t lo v' s' s'') : RolledBack lay sel R F t lo v s s'' := by
  have hfirst : Edit lay sel R F t (fun w => lo ≤ w ∧ (w < NPAGES → w < v ∨ ent R s.mem t w = none))
    s M s' :=
    hedit.weaken fun w hw => ⟨hlo.trans (hV w hw).1, fun _ => .inr (hV w hw).2⟩
  refine (hfirst.trans (Edit.weaken h ?_)).congr ?_
  · rintro w ⟨hw, hor⟩
    refine ⟨hw, fun hlt => ?_⟩
    by_cases hin : v ≤ w ∧ w < v'
    · exact .inr (hnew w hin.1 hin.2)
    · rcases hor hlt with h1 | h1
      · exact .inl (by omega)
      · rw [hedit.entries w hlt, hM w hlt (by omega)] at h1
        exact .inr h1
  · intro w hlt
    unfold without
    simp only [within_pages]
    by_cases hin : v ≤ w ∧ w < v'
    · rw [if_neg (by omega), if_pos (by omega), hnew w hin.1 hin.2]
    · rw [hedit.entries w hlt, hM w hlt (by omega)]
      by_cases hw : lo ≤ w ∧ w < v
      · rw [if_pos hw, if_pos (by omega)]
      · rw [if_neg hw, if_neg (by omega)]

/-- The loop, if there is room for as many pages as there can be. -/
theorem wp_uvmalloc_loop [DecidableEq T] (hlay : lay.Ok) (ht : R.root t = some r) {lo n v : Nat}
    (h : Forest lay sel R F s) (hlo : lo ≤ v) (hv : v ≤ NPAGES) (hfuel : newsz ≤ (v + n) * PGSIZE)
    (hsel : ∀ w, lo ≤ w → w < v → sel t w = true)
    (hroom : ∀ w, v ≤ w → w * PGSIZE < newsz → w < v + s.freelist.length →
      w < NPAGES ∧ sel t w = true ∧ ent R s.mem t w = none) :
    wp (uvmalloc_loop lay r (lo * PGSIZE) newsz n (v * PGSIZE)) (fun res s' =>
      res = newsz ∧ Grown lay sel R F t (v * PGSIZE) newsz s s' ∨
      res = 0 ∧ RolledBack lay sel R F t lo v s s') E s := by
  -- on the rounds; the pages from `lo` up to `v` are mapped already
  induction n generalizing v s with
  | zero => exact .inl ⟨rfl, .done h hfuel⟩
  | succ n ih =>
    rw [uvmalloc_loop]
    by_cases hlt : v * PGSIZE < newsz
    case neg =>
      rw [if_neg hlt]
      exact .inl ⟨rfl, .done h (by omega)⟩
    rw [if_pos hlt]
    refine wp_kalloc_fresh hlay h (fun _ => ?_) fun pg s1 hfresh => ?_
    · exact (wp_uvmalloc_err h ht hv hsel).post fun _ _ hr => .inr hr
    have hlen := hfresh.length
    obtain ⟨hpage, hself, hnone⟩ := hroom v le_rfl hlt (by omega)
    have hnext : (v * PGSIZE + PGSIZE) % 2 ^ 64 = (v + 1) * PGSIZE := by
      rw [NPAGES_eq] at hpage
      rw [PGSIZE_eq]
      omega
    rw [wp_bind, wp_memset]
    refine (hfresh.fill 0).wp_map_or_free (f := userPerm) hlay ht (by decide) (by decide)
      (fun _ => hself) (.inl ⟨hpage, hnone⟩) (fun s2 _ _ hedit => ?_)
      fun s2 _ _ hlist hbytes hedit => ?_
    · -- no page-table page: the new page is free again
      refine (wp_uvmalloc_err hedit.forest ht hv hsel).post fun res s' hr => .inr ⟨hr.1, ?_⟩
      exact hr.2.of_edit hedit hlo le_rfl (fun _ hc => hc.elim) (fun _ _ _ => rfl) fun w h1 h2 =>
        by omega
    · have hother : ∀ w, w < NPAGES → w ≠ v → ent R s2.mem t w = ent R s.mem t w := by
        intro w hw hne
        rw [hedit.entries w hw, mapped, if_neg (by omega)]
      rw [hnext]
      refine (ih hedit.forest (by omega) (by omega) (by rwa [add_assoc, add_comm 1 n])
        (fun w h1 h2 => ?_) fun w h1 h2 h3 => ?_).post ?_
      · by_cases hw : w = v
        · rw [hw, hself]
        · exact hsel w h1 (by omega)
      · obtain ⟨h4, h5, h6⟩ := hroom w (by omega) h2 (by omega)
        exact ⟨h4, h5, (hother w h4 (by omega)).trans h6⟩
      · intro res s' hpost
        rcases hpost with ⟨hres, hg⟩ | ⟨hres, hback⟩
        · exact .inl ⟨hres, hg.cons hpage hlt hself hnone hfresh.page hedit hbytes⟩
        · refine .inr ⟨hres, hback.of_edit hedit hlo (by omega) ?_ ?_ ?_⟩
          · intro w hw
            rw [hw]
            exact ⟨le_rfl, hnone⟩
          · exact fun w _ hw => if_neg (by omega)
          · intro w h1 h2
            obtain rfl : w = v := by omega
            exact hnone

theorem Grown.congr {lo lo' hi : Nat} (hlo : ∀ w, within lo' hi w ↔ within lo hi w)
    (h : Grown lay sel R F t lo hi s s') : Grown lay sel R F t lo' hi s s' where
  edit := h.edit.weaken fun w hw => (hlo w).mpr hw
  was := fun w hw => h.was w ((hlo w).mp hw)
  new := fun w hw => h.new w ((hlo w).mp hw)
  rest := fun w hlt hw => h.rest w hlt fun hc => hw ((hlo w).mpr hc)

/-- Nothing is mapped that was not; above `lo` pages may have come and gone. -/
def Failed (lay : Layout) (sel : T → Nat → Bool) (R : Handles T Z) (F : List Nat) (t : T) (lo : Nat)
    (s s' : Phys) : Prop :=
  Edit lay sel R F t (fun w => lo ≤ w * PGSIZE ∧ (w < NPAGES → ent R s.mem t w = none)) s
    (ent R s.mem t) s'

/-- `uvmalloc`, if there is room for as many pages as there can be. -/
theorem wp_uvmalloc [DecidableEq T] (hlay : lay.Ok) (h : Forest lay sel R F s)
    (ht : R.root t = some r) (hold : oldsz ≤ MAXVA)
    (hroom : ∀ w, within oldsz newsz w → w < (oldsz + 4095) / 4096 + s.freelist.length →
      w < NPAGES ∧ sel t w = true ∧ ent R s.mem t w = none) :
    wp (uvmalloc lay r oldsz newsz) (fun res s' => newsz < oldsz ∧ res = oldsz ∧ s' = s ∨
      oldsz ≤ newsz ∧ res = newsz ∧ Grown lay sel R F t oldsz newsz s s' ∨
      oldsz ≤ newsz ∧ res = 0 ∧ Failed lay sel R F t oldsz s s') E s := by
  rw [uvmalloc]
  by_cases hlt : newsz < oldsz
  · rw [if_pos hlt]
    exact .inl ⟨hlt, rfl, rfl⟩
  have hge : oldsz ≤ newsz := by omega
  have hfirst : ∀ hi w, within oldsz hi w ↔ within ((oldsz + 4095) / 4096 * PGSIZE) hi w := by
    intro hi w
    unfold within
    rw [PGSIZE_eq]
    omega
  have hpages : (oldsz + 4095) / 4096 ≤ NPAGES := by
    unfold MAXVA at hold
    rw [NPAGES_eq]
    omega
  have hfuel : newsz ≤ ((oldsz + 4095) / 4096 + (newsz / PGSIZE + 1)) * PGSIZE := by
    rw [PGSIZE_eq]
    omega
  rw [if_neg hlt, PGROUNDUP_eq hold]
  refine (wp_uvmalloc_loop hlay ht h le_rfl hpages hfuel (fun w h1 h2 => by omega) fun w h1 h2 =>
    ?_).post ?_
  · exact hroom w ((hfirst _ w).mpr ⟨mul_le_mul_right _ h1, h2⟩)
  intro res s' hpost
  refine .inr (hpost.imp (fun hg => ⟨hge, hg.1, hg.2.congr (hfirst _)⟩) fun hb => ⟨hge, hb.1, ?_⟩)
  refine (Edit.weaken hb.2 fun w hw => ?_).congr fun w _ => ?_
  · refine ⟨((hfirst (w * PGSIZE + 1) w).mpr ⟨mul_le_mul_right _ hw.1, by omega⟩).1, fun hlt => ?_⟩
    exact (hw.2 hlt).resolve_left (by have := hw.1; omega)
  · unfold without
    rw [if_neg]
    exact fun hc => absurd hc.1 (by have := hc.2; omega)

theorem Failed.own_none {lo w : Nat} (hs : Failed lay sel R F t lo s s')
    (hw : lo ≤ w * PGSIZE ∧ (w < NPAGES → ent R s.mem t w = none)) :
    own sel R s.mem (.leaf t w) = none ∧ own sel R s'.mem (.leaf t w) = none := by
  rw [own, own]
  by_cases hlt : w < NPAGES ∧ sel t w = true
  · rw [if_pos hlt, if_pos hlt, Edit.entries hs w hlt.1, hw.2 hlt.1]
    exact ⟨rfl, rfl⟩
  · rw [if_neg hlt, if_neg hlt]
    exact ⟨rfl, rfl⟩

/-- Everything but page-table pages is as before. -/
theorem Failed.keeps {lo : Nat} (h : Failed lay sel R F t lo s s') :
    Keeps sel R F (Outside t fun _ => False) s s' := by
  -- a leaf that was touched held nothing before and holds nothing now
  have hcase : ∀ o, Outside t (fun _ => False) o →
      Outside t (fun w => lo ≤ w * PGSIZE ∧ (w < NPAGES → ent R s.mem t w = none)) o ∨
      own sel R s.mem o = none ∧ own sel R s'.mem o = none := by
    intro o ho
    cases o with
    | node u n => exact .inl ho
    | leaf u w =>
      by_cases hw : u = t ∧ lo ≤ w * PGSIZE ∧ (w < NPAGES → ent R s.mem t w = none)
      · rw [hw.1]
        exact .inr (h.own_none hw.2)
      · exact .inl fun hu hV => hw ⟨hu, hV⟩
    | single z => exact .inl trivial
  refine ⟨fun o ho => ?_, fun o pg ho hpg => ?_, (Edit.keeps h).flight⟩
  · rcases hcase o ho with hK | ⟨h1, h2⟩
    · exact (Edit.keeps h).own o hK
    · rw [h1, h2]
  · rcases hcase o ho with hK | ⟨h1, -⟩
    · exact (Edit.keeps h).page o pg hK hpg
    · rw [h1] at hpg
      cases hpg

/-- What has come in was free. -/
theorem Grown.free {lo hi w : Nat} (h : Grown lay sel R F t lo hi s s') (hs : Forest lay sel R F s)
    (hw : within lo hi w) : ∃ e, ent R s'.mem t w = some e ∧ PTE2PA e ∈ s.freelist := by
  obtain ⟨hlt, hsel, -⟩ := h.was w hw
  have hempty : ∀ v, within lo hi v → own sel R s.mem (.leaf t v) = none := by
    intro v hv
    obtain ⟨h1, h2, h3⟩ := h.was v hv
    rw [own, if_pos ⟨h1, h2⟩, h3, Option.map_none]
  cases he : ent R s'.mem t w with
  | none =>
    have := h.new w hw
    rw [space_of_none he] at this
    cases this
  | some e =>
    have hown := own_leaf hlt hsel he
    have hpage := (h.edit.forest.owns.used_of_own hown).1
    exact ⟨e, rfl, not_not.mp fun hc => h.edit.not_used hs hempty hw hown ⟨hpage, hc⟩⟩

/-- `uvmdealloc` takes back what `uvmalloc` has mapped. -/
theorem Grown.wp_uvmdealloc [DecidableEq T] (h : Grown lay sel R F t oldsz newsz s s')
    (ht : R.root t = some r) (hsz : oldsz ≤ newsz) (hnew : newsz ≤ MAXVA) :
    wp (uvmdealloc lay r newsz oldsz)
      (fun res s'' => res = oldsz ∧ Edit lay sel R F t (within oldsz newsz) s (ent R s.mem t) s'')
      E s' := by
  refine (VM.wp_uvmdealloc h.edit.forest ht hnew fun w hw => (h.was w hw).2.1).post ?_
  rintro res s'' ⟨hres, hedit, -⟩
  refine ⟨hres.trans (min_eq_right hsz), (h.edit.trans hedit).congr fun w hlt => ?_⟩
  unfold without
  by_cases hw : within oldsz newsz w
  · rw [if_pos hw, (h.was w hw).2.2]
  · rw [if_neg hw, h.rest w hlt hw]

/-! ## Growing and back -/

/-- **`uvmalloc` maps all or nothing, and `uvmdealloc` takes it back.**  Take a
    page table whose pages below the trapframe are exactly those below
    `PGROUNDUP(oldsz)`, and `oldsz ≤ newsz ≤ TRAPFRAME`, with any number of free
    pages.  `uvmalloc` returns, and

    * either it returns `newsz`, which is not 0, and exactly the pages below
      `PGROUNDUP(newsz)` are mapped: the old ones as before, the new ones zeroed,
      for the user, in pages that were free, no two in the same page;
      `uvmdealloc(newsz, oldsz)` then makes all entries what they were;
    * or it returns 0, all entries and their pages are as before, and whatever is
      in use now was in use before or is a page-table page.

    The pages of everything else are as before. -/
theorem uvmalloc_grows [DecidableEq T] (hlay : lay.Ok) (h : Forest lay sel R F s)
    (ht : R.root t = some r) (hsel : ∀ v, v * PGSIZE < TRAPFRAME → sel t v = true)
    (hsz : oldsz ≤ newsz) (htop : newsz ≤ TRAPFRAME)
    (hmapped : ∀ v, v * PGSIZE < TRAPFRAME →
      (ent R s.mem t v ≠ none ↔ v * PGSIZE < PGROUNDUP oldsz)) :
    ∃ res s', uvmalloc lay r oldsz newsz s = .ok res s' ∧ Forest lay sel R F s' ∧
      (res = newsz ∧ 0 < newsz ∧
        (∀ v, v * PGSIZE < TRAPFRAME → (ent R s'.mem t v ≠ none ↔ v * PGSIZE < PGROUNDUP newsz)) ∧
        (∀ v, v * PGSIZE < PGROUNDUP oldsz →
          ent R s'.mem t v = ent R s.mem t v ∧ space R s'.mem t v = space R s.mem t v) ∧
        (∀ v, PGROUNDUP oldsz ≤ v * PGSIZE → v * PGSIZE < PGROUNDUP newsz →
          space R s'.mem t v = some (userPerm ||| PTE_V, List.replicate PGSIZE 0) ∧
          ∃ e, ent R s'.mem t v = some e ∧ PTE2PA e ∈ s.freelist) ∧
        (∀ v w e e', v * PGSIZE < TRAPFRAME → w * PGSIZE < TRAPFRAME → ent R s'.mem t v = some e →
          ent R s'.mem t w = some e' → PTE2PA e = PTE2PA e' → v = w) ∧
        (∃ s'', uvmdealloc lay r newsz oldsz s' = .ok oldsz s'' ∧
          (∀ v, v < NPAGES → ent R s''.mem t v = ent R s.mem t v) ∧
          ∀ v, v * PGSIZE < PGROUNDUP oldsz → space R s''.mem t v = space R s.mem t v) ∨
        res = 0 ∧ (∀ v, v < NPAGES → ent R s'.mem t v = ent R s.mem t v) ∧
        (∀ v, v * PGSIZE < PGROUNDUP oldsz → space R s'.mem t v = space R s.mem t v) ∧
        ∀ pg, used lay s' pg → used lay s pg ∨ ∃ n, node s'.mem r n = some pg) ∧
      Keeps sel R F (Outside t (within oldsz newsz)) s s' := by
  have hmax : TRAPFRAME ≤ MAXVA := by decide
  have hold : oldsz ≤ MAXVA := by omega
  have hpages : ∀ v, v * PGSIZE < TRAPFRAME → v < NPAGES :=
    fun v hv => page_div v ▸ div_lt (by omega)
  have hle : ∀ v, PGROUNDUP oldsz ≤ v * PGSIZE ↔ oldsz ≤ v * PGSIZE := by
    intro v
    have := lt_PGROUNDUP (w := v) hold
    omega
  simp only [lt_PGROUNDUP hold, lt_PGROUNDUP (htop.trans hmax), hle] at *
  have hbelow : ∀ v, v * PGSIZE < oldsz → v * PGSIZE < TRAPFRAME := fun v hv => by omega
  have hnone : ∀ v, within oldsz newsz v → ent R s.mem t v = none := by
    intro v hv
    by_contra hc
    have := (hmapped v (lt_of_lt_of_le hv.2 htop)).mp hc
    have := hv.1
    omega
  have hrun := (wp_uvmalloc (E := fun _ _ => False) hlay h ht hold fun v hv _ =>
    ⟨hpages v (lt_of_lt_of_le hv.2 htop), hsel v (lt_of_lt_of_le hv.2 htop), hnone v hv⟩).returns
  obtain ⟨res, s', hrun, hpost⟩ := hrun
  refine ⟨res, s', hrun, ?_⟩
  rcases hpost with ⟨hc, -⟩ | ⟨-, hres, hg⟩ | ⟨-, hres, hf⟩
  · omega
  · have hout : ∀ v, v * PGSIZE < oldsz → ¬ within oldsz newsz v := fun v hv hw => by
      unfold within at hw
      omega
    have hsame : ∀ v, v * PGSIZE < oldsz → space R s'.mem t v = space R s.mem t v := fun v hv =>
      hg.edit.space_self (hout v hv) (hg.rest v (hpages v (hbelow v hv)) (hout v hv))
      (hpages v (hbelow v hv))
        (hsel v (hbelow v hv))
    refine ⟨hg.edit.forest, ?_, hg.edit.keeps⟩
    by_cases hpos : newsz = 0
    · -- no page is to be mapped
      have hno : ∀ v, ¬ within oldsz newsz v := fun v hv => by
        unfold within at hv
        omega
      refine .inr ⟨hres.trans hpos, fun v hv => hg.rest v hv (hno v), hsame, fun pg => ?_⟩
      exact hg.edit.used_or_node h ht fun w hw => absurd hw (hno w)
    refine .inl ⟨hres, by omega, fun v hv => ?_, fun v hv => ?_, fun v h1 h2 => ?_, ?_, ?_⟩
    · by_cases hw : within oldsz newsz v
      · obtain ⟨e, he, -⟩ := hg.free h hw
        rw [he]
        exact ⟨fun _ => hw.2, fun _ => Option.some_ne_none e⟩
      · rw [hg.rest v (hpages v hv) hw, hmapped v hv]
        unfold within at hw
        omega
    · exact ⟨hg.rest v (hpages v (hbelow v hv)) (hout v hv), hsame v hv⟩
    · exact ⟨hg.new v ⟨h1, h2⟩, hg.free h ⟨h1, h2⟩⟩
    · intro v w e e' hv hw he he' heq
      have h1 := own_leaf (hpages v hv) (hsel v hv) he
      have h2 := own_leaf (hpages w hw) (hsel w hw) he'
      rw [← heq] at h2
      exact (Owner.leaf.inj (hg.edit.forest.owns.inj h1 h2)).2
    · obtain ⟨res', s'', hrun', rfl, hback⟩ :=
        (hg.wp_uvmdealloc (E := fun _ _ => False) ht hsz (htop.trans hmax)).returns
      refine ⟨s'', hrun', hback.entries, fun v hv => ?_⟩
      exact hback.space_self (hout v hv) rfl (hpages v (hbelow v hv)) (hsel v (hbelow v hv))
  · have hk := hf.keeps
    refine ⟨Edit.forest hf, .inr ⟨hres, Edit.entries hf, fun v hv => ?_, fun pg => ?_⟩, ?_⟩
    · exact hk.same_space (fun _ hc => hc) (hpages v (hbelow v hv)) (hsel v (hbelow v hv))
        (Edit.entries hf v (hpages v (hbelow v hv)))
    · exact Edit.used_or_node hf h ht fun w hw => (hf.own_none hw).2
    · refine hk.weaken (fun o ho => ?_) fun _ hm => hm
      cases o with
      | node u n => exact ho
      | leaf u w => exact fun _ hc => hc
      | single z => trivial

end Grow

theorem uvmalloc_grows_eight : ∃ res s',
    uvmalloc eightLayout (eightRoot true) 0 (PGSIZE + 1) eightPages = .ok res s' ∧
    (res = PGSIZE + 1 ∧
        space eightTrees s'.mem true 1 = some (userPerm ||| PTE_V, List.replicate PGSIZE 0) ∨
      res = 0 ∧ ent eightTrees s'.mem true 1 = none) := by
  have hzero : ∀ v, ent eightTrees eightPages.mem true v = none := ent_of_zero fun _ => rfl
  have h0 : PGROUNDUP 0 = 0 := by decide
  have hmapped : ∀ v, v * PGSIZE < TRAPFRAME →
      (ent eightTrees eightPages.mem true v ≠ none ↔ v * PGSIZE < PGROUNDUP 0) := by
    intro v _
    rw [hzero v, h0]
    simp
  obtain ⟨res, s', hrun, -, hout, -⟩ :=
    uvmalloc_grows eightLayout_ok eightPages_forest rfl (fun _ _ => rfl)
    (show 0 ≤ PGSIZE + 1 by decide) (by decide) hmapped
  refine ⟨res, s', hrun, hout.imp ?_ fun hf => ⟨hf.1, (hf.2.1 1 (by decide)).trans (hzero 1)⟩⟩
  intro hg
  exact ⟨hg.1, (hg.2.2.2.2.1 1 (by decide) (by decide)).1⟩

end NoviceKernel.VM
