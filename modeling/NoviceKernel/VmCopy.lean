import NoviceKernel.VmForest

/-! # Copying an address space (`uvmcopy` of `vm.c`)

    What a process has at a page of its memory is the flags of the entry and the
    bytes of the page (`space`).  `fork` gives the child the same.

    **Key theorem**: `uvmcopy` copies exactly what is there, page by page, or
    leaves nothing behind but empty page-table pages (`uvmcopy_copies`). -/

namespace NoviceKernel.VM

open Hoare Ledger Option Nat

/-- The bytes of a page. -/
def bytesOf (m : Nat → UInt8) (pg : Nat) : List UInt8 := (List.range PGSIZE).map fun i => m (pg + i)

variable {m : Nat → UInt8} {pg : Nat} {m' : Nat → UInt8}

theorem bytesOf_congr {pg' : Nat}
    (h : ∀ i, i < PGSIZE → m' (pg' + i) = m (pg + i)) : bytesOf m' pg' = bytesOf m pg :=
  List.map_congr_left fun i hi => h i (List.mem_range.mp hi)

theorem SamePage.bytesOf (h : SamePage m m' pg) : VM.bytesOf m' pg = VM.bytesOf m pg :=
  bytesOf_congr fun i hi => h _ (by omega) (by omega)

variable {v e : Nat}

section Space

variable {T Z : Type} {lay : Layout} {sel : T → Nat → Bool} {R : Handles T Z} {F : List Nat}
  {s s' s'' : Phys} {t u : T} {V : Nat → Prop} {M : Nat → Option Nat} {E : Stop → Phys → Prop}

/-- What tree `t` has at page `v`: the flags, and the bytes of the physical page. -/
def space (R : Handles T Z) (m : Nat → UInt8) (t : T) (v : Nat) : Option (Nat × List UInt8) :=
  (ent R m t v).map fun e => (PTE_FLAGS e, bytesOf m (PTE2PA e))

theorem space_of_none (h : ent R m t v = none) : space R m t v = none := by
  unfold space
  rw [h, map_none]

theorem space_of_some (h : ent R m t v = some e) :
    space R m t v = some (PTE_FLAGS e, bytesOf m (PTE2PA e)) := by
  unfold space
  rw [h, map_some]

theorem own_leaf (hv : v < NPAGES) (hsel : sel t v = true)
    (he : ent R m t v = some e) : own sel R m (.leaf t v) = some (PTE2PA e) := by
  rw [own, if_pos ⟨hv, hsel⟩, he, map_some]

/-- The entry and its page are kept. -/
theorem Keeps.same_space {K : Owner T Z → Prop} (h : Keeps sel R F K s s') (hK : K (.leaf t v))
    (hv : v < NPAGES) (hsel : sel t v = true) (hent : VM.ent R s'.mem t v = VM.ent R s.mem t v) :
    space R s'.mem t v = space R s.mem t v := by
  cases he : VM.ent R s.mem t v with
  | none => rw [space_of_none he, space_of_none (hent.trans he)]
  | some e =>
    have hpage := h.page _ _ hK (own_leaf hv hsel he)
    rw [space_of_some he, space_of_some (hent.trans he), hpage.bytesOf]

section

variable {v pg r : Nat} (h : Edit lay sel R F t V s M s')
include h

/-- Another tree has what it had. -/
theorem Edit.space_other (hu : u ≠ t) (hv : v < NPAGES) (hsel : sel u v = true) :
    space R s'.mem u v = space R s.mem u v :=
  h.keeps.same_space (fun hut => absurd hut hu) hv hsel (h.keeps.ent (fun _ => hu) v)

/-- So does the tree itself at a page that is not touched. -/
theorem Edit.space_self (hV : ¬ V v) (hM : M v = ent R s.mem t v) (hv : v < NPAGES)
    (hsel : sel t v = true) : space R s'.mem t v = space R s.mem t v :=
  h.keeps.same_space (fun _ => hV) hv hsel ((h.entries v hv).trans hM)

variable (hs : Forest lay sel R F s)
include hs

/-- A page that tree `t` has got at a place where it had none was not in use. -/
theorem Edit.not_used (hnone : ∀ w, V w → own sel R s.mem (.leaf t w) = none)
    (hV : V v) (hpg : own sel R s'.mem (.leaf t v) = some pg) : ¬ used lay s pg := by
  intro hused
  rcases (hs.owns.iff pg).mp hused with hm | ⟨o, ho⟩
  · exact h.forest.owns.apart hpg hm
  · have hne : ∀ o', own sel R s'.mem o' = some pg → o' = .leaf t v := fun o' ho' =>
      h.forest.owns.inj ho' hpg
    -- whoever held it still holds it, or was an empty leaf
    have hout : Outside t V o → False := fun hK => by
      obtain rfl := hne o ((h.keeps.own o hK).trans ho)
      exact hK rfl hV
    cases o with
    | node u n =>
      by_cases hu : u = t
      · subst hu
        cases hne _ (h.nodes n pg ho)
      · exact hout hu
    | leaf u w =>
      by_cases hw : u = t ∧ V w
      · rw [hw.1, hnone w hw.2] at ho
        cases ho
      · exact hout fun hu hv => hw ⟨hu, hv⟩
    | single z => exact hout trivial

/-- If the leaves that were touched hold nothing in the end, all that the edit has
    taken is page-table pages. -/
theorem Edit.used_or_node (ht : R.root t = some r)
    (hnone : ∀ w, V w → own sel R s'.mem (.leaf t w) = none) (hpg : used lay s' pg) :
    used lay s pg ∨ ∃ n, node s'.mem r n = some pg := by
  rcases (h.forest.owns.iff pg).mp hpg with hm | ⟨o, ho⟩
  · exact .inl (hs.owns.used_of_mem hm)
  · have hkept : Outside t V o → used lay s pg := fun hK =>
      hs.owns.used_of_own ((h.keeps.own o hK).symm.trans ho)
    cases o with
    | node u n =>
      by_cases hu : u = t
      · subst hu
        exact .inr ⟨n, (own_node ht).symm.trans ho⟩
      · exact .inl (hkept hu)
    | leaf u v =>
      by_cases hv : u = t ∧ V v
      · rw [hv.1, hnone v hv.2] at ho
        cases ho
      · exact .inl (hkept fun hu hV => hv ⟨hu, hV⟩)
    | single z => exact .inl (hkept trivial)

/-- If no page-table page has come in, what a leaf has given up is free. -/
theorem Edit.freed (hnodes : ∀ n, own sel R s'.mem (.node t n) = own sel R s.mem (.node t n))
    (hnone : ∀ w, V w → own sel R s'.mem (.leaf t w) = none) (hV : V v)
    (hpg : own sel R s.mem (.leaf t v) = some pg) : pg ∈ s'.freelist := by
  by_contra hc
  rcases (h.forest.owns.iff pg).mp ⟨(hs.owns.used_of_own hpg).1, hc⟩ with hm | ⟨o, ho⟩
  · exact hs.owns.apart hpg hm
  · have hne : ∀ o', own sel R s.mem o' = some pg → o' = .leaf t v :=
      fun o' ho' => hs.owns.inj ho' hpg
    have hout : ¬ Outside t V o := fun hK => by
      obtain rfl := hne o ((h.keeps.own o hK).symm.trans ho)
      exact hK rfl hV
    cases o with
    | node u n =>
      by_cases hu : u = t
      · subst hu
        cases hne _ ((hnodes n).symm.trans ho)
      · exact hout hu
    | leaf u w =>
      by_cases hw : u = t ∧ V w
      · rw [hw.1, hnone w hw.2] at ho
        cases ho
      · exact hout fun hu hv => hw ⟨hu, hv⟩
    | single z => exact hout trivial

end

end Space

/-! ## The entry that a walk finds -/

section Walk

variable {m : Nat → UInt8} {root v p : Nat}

theorem entry_of_no_node (hp : node m root (.leaf (ix 2 (v * PGSIZE)) (ix 1 (v * PGSIZE))) = none) :
    entry m root v = none := by
  unfold entry lookup entryAt
  rw [hp, bind_none]

theorem entry_of_node (hp : node m root (.leaf (ix 2 (v * PGSIZE)) (ix 1 (v * PGSIZE))) = some p) :
    entry m root v = if pte m p (PX 0 (v * PGSIZE)) &&& PTE_V = 0 then none
      else some (pte m p (PX 0 (v * PGSIZE))) := by
  have hix : (ix 0 (v * PGSIZE) : Nat) = PX 0 (v * PGSIZE) := rfl
  unfold entry lookup entryAt
  rw [hp, bind_some, validEntry, hix]
  by_cases hv : pte m p (PX 0 (v * PGSIZE)) &&& PTE_V = 0
  · rw [if_pos hv, if_neg fun hc => valid_iff.mp hc hv]
  · rw [if_neg hv, if_pos (valid_iff.mpr hv)]

end Walk

/-! ## `uvmcopy` -/

section Copy

variable {T Z : Type} {lay : Layout} {sel : T → Nat → Bool} {R : Handles T Z} {F : List Nat}
  {s s' s'' : Phys} {t u : T} {old new sz : Nat} {E : Stop → Phys → Prop}

/-- The pages from `v` on that lie below `sz`. -/
def below (sz v w : Nat) : Prop := v ≤ w ∧ w * PGSIZE < sz

/-- Tree `t` has the pages of `u` from `v` on; all else is as before. -/
structure Copied (lay : Layout) (sel : T → Nat → Bool) (R : Handles T Z) (F : List Nat) (u t : T)
    (sz v : Nat) (s s' : Phys) : Prop where
  edit : Edit lay sel R F t (below sz v) s (ent R s'.mem t) s'
  same : ∀ w, below sz v w → space R s'.mem t w = space R s.mem u w
  rest : ∀ w, w < NPAGES → ¬ below sz v w → ent R s'.mem t w = ent R s.mem t w

/-- Tree `t` has nothing below `sz`; all else is as before. -/
def Cleared (lay : Layout) (sel : T → Nat → Bool) (R : Handles T Z) (F : List Nat) (t : T)
    (sz : Nat) (s s' : Phys) : Prop :=
  Edit lay sel R F t (below sz 0) s (fun w => if w * PGSIZE < sz then none else ent R s.mem t w) s'

/-- The loop is over. -/
theorem Copied.done (h : Forest lay sel R F s) (hv : sz ≤ v * PGSIZE) :
    Copied lay sel R F u t sz v s s := by
  have hnot : ∀ w, ¬ below sz v w := by
    intro w hw
    have := mul_le_mul_right PGSIZE hw.1
    have := hw.2
    omega
  exact ⟨.refl h, fun w hw => absurd hw (hnot w), fun _ _ _ => rfl⟩

/-- A hole of the parent stays a hole. -/
theorem Copied.skip (hu : ent R s.mem u v = none) (ht : ent R s.mem t v = none) (hv : v < NPAGES)
    (h : Copied lay sel R F u t sz (v + 1) s s') : Copied lay sel R F u t sz v s s' := by
  have hsplit : ∀ w, below sz v w → w ≠ v → below sz (v + 1) w :=
    fun w hw hne => ⟨by have := hw.1; omega, hw.2⟩
  have hself : ent R s'.mem t v = none := by
    rw [h.rest v hv fun hb => absurd hb.1 (by omega), ht]
  refine ⟨h.edit.weaken fun w hw => ⟨by have := hw.1; omega, hw.2⟩, fun w hw => ?_,
    fun w hw hb => ?_⟩
  · by_cases hwv : w = v
    · rw [hwv, space_of_none hself, space_of_none hu]
    · exact h.same w (hsplit w hw hwv)
  · exact h.rest w hw fun hc => hb ⟨by have := hc.1; omega, hc.2⟩

/-- The flags of a valid entry, with the valid bit set again. -/
theorem flags_valid (h : valid e = true) : PTE_FLAGS e ||| PTE_V = PTE_FLAGS e := by
  rw [valid_eq, decide_eq_true_iff] at h
  rw [PTE_FLAGS_eq]
  unfold PTE_V
  refine eq_of_testBit_eq fun i => ?_
  rw [testBit_or]
  cases i with
  | zero => simp [testBit_zero]; omega
  | succ i => simp [testBit_succ]

/-- One page is copied, then those after it. -/
theorem Copied.cons (hut : u ≠ t) (hsz : sz ≤ MAXVA) (hselu : ∀ w, w * PGSIZE < sz → sel u w = true)
    (hselt : ∀ w, w * PGSIZE < sz → sel t w = true) (hlt : v * PGSIZE < sz)
    (he : ent R s.mem u v = some e) (hval : valid e = true) (hpg : isPage lay pg)
    (hone : Edit lay sel R F t (· = v) s (mapped (ent R s.mem t) v 1 pg (PTE_FLAGS e)) s')
    (hbytes : ∀ i, i < PGSIZE → s'.mem (pg + i) = s.mem (PTE2PA e + i))
    (h : Copied lay sel R F u t sz (v + 1) s' s'') : Copied lay sel R F u t sz v s s'' := by
  have hpages : ∀ w, w * PGSIZE < sz → w < NPAGES := fun w hw => page_div w ▸ div_lt (by omega)
  have hflags : PTE_FLAGS e < 1024 := by
    rw [PTE_FLAGS_eq]
    exact Nat.mod_lt _ (by decide)
  have hother : ∀ w, w ≠ v → mapped (ent R s.mem t) v 1 pg (PTE_FLAGS e) w = ent R s.mem t w :=
    fun w hw => if_neg (by omega)
  -- the new page, which the rest of the loop leaves alone
  have hnew : ent R s'.mem t v = some (leafEntry pg (PTE_FLAGS e)) := by
    rw [hone.entries v (hpages v hlt), mapped, if_pos (by omega), Nat.sub_self, Nat.zero_mul,
      Nat.add_zero, Nat.mod_eq_of_lt hpg.lt]
  have hpa : PTE2PA (leafEntry pg (PTE_FLAGS e)) = pg := by
    rw [PTE2PA_leafEntry hflags hpg.lt]
    exact Nat.div_mul_cancel (Nat.dvd_of_mod_eq_zero hpg.1)
  have hself : space R s''.mem t v = space R s.mem u v := by
    have hb : ¬ below sz (v + 1) v := fun hb => absurd hb.1 (by omega)
    rw [h.edit.space_self hb (h.rest v (hpages v hlt) hb) (hpages v hlt) (hselt v hlt),
      space_of_some hnew, space_of_some he, PTE_FLAGS_leafEntry hflags, flags_valid hval, hpa,
      bytesOf_congr hbytes]
  refine ⟨?_, fun w hw => ?_, fun w hw hb => ?_⟩
  · refine (hone.weaken ?_).trans (h.edit.weaken ?_)
    · rintro w rfl
      exact ⟨le_rfl, hlt⟩
    · exact fun w hw => ⟨by have := hw.1; omega, hw.2⟩
  · by_cases hwv : w = v
    · rw [hwv, hself]
    · rw [h.same w ⟨by have := hw.1; omega, hw.2⟩,
        hone.space_other hut (hpages w hw.2) (hselu w hw.2)]
  · have hwv : w ≠ v := by
      rintro rfl
      exact hb ⟨le_rfl, hlt⟩
    rw [h.rest w hw fun hc => hb ⟨by have := hc.1; omega, hc.2⟩, hone.entries w hw, hother w hwv]

/-- Failure after some pages: the first `v` pages are unmapped. -/
theorem wp_uvmcopy_err [DecidableEq T] (h : Forest lay sel R F s) (ht : R.root t = some new)
    (hsz : sz ≤ MAXVA) (hselt : ∀ w, w * PGSIZE < sz → sel t w = true) (hlt : v * PGSIZE < sz)
    (hnone : ∀ w, below sz v w → ent R s.mem t w = none) :
    wp (do uvmunmap lay new 0 (v * PGSIZE / PGSIZE) true; return (-1 : Int))
      (fun r s' => r = -1 ∧ Cleared lay sel R F t sz s s') E s := by
  have hv : v < NPAGES := page_div v ▸ div_lt (by omega)
  have hmul : ∀ w, w < v → w * PGSIZE < sz := fun w hw =>
    lt_of_le_of_lt (mul_le_mul_right _ hw.le) hlt
  rw [wp_bind, page_div, show (0 : Nat) = 0 * PGSIZE from (zero_mul _).symm]
  refine (wp_uvmunmap_owned h ht (by omega) fun w _ hw => hselt w (hmul w (by omega))).post ?_
  rintro - s' ⟨hedit, -⟩
  refine ⟨rfl, (hedit.weaken fun w hw => ⟨zero_le _, hmul w (by omega)⟩).congr fun w _ => ?_⟩
  unfold unmapped
  by_cases hw : w < v
  · rw [if_pos (hmul w hw), if_pos (by omega)]
  · have hout : ¬ (0 ≤ w ∧ w < 0 + v) := by omega
    rw [if_neg hout]
    by_cases hw' : w * PGSIZE < sz
    · rw [if_pos hw', hnone w ⟨by omega, hw'⟩]
    · rw [if_neg hw']

/-- What was cleared from a later state on is cleared. -/
theorem Cleared.of_edit {V : Nat → Prop} {M : Nat → Option Nat} (h : Edit lay sel R F t V s M s')
    (hV : ∀ w, V w → w * PGSIZE < sz)
    (hM : ∀ w, w < NPAGES → ¬ w * PGSIZE < sz → M w = ent R s.mem t w)
    (h' : Cleared lay sel R F t sz s' s'') : Cleared lay sel R F t sz s s'' := by
  refine ((h.weaken fun w hw => ⟨zero_le _, hV w hw⟩).trans h').congr fun w hw => ?_
  by_cases hlt : w * PGSIZE < sz
  · rw [if_pos hlt, if_pos hlt]
  · rw [if_neg hlt, if_neg hlt, h.entries w hw, hM w hw hlt]

theorem wp_uvmcopy_loop [DecidableEq T] (hlay : lay.Ok) (hu : R.root u = some old)
    (ht : R.root t = some new) (hut : u ≠ t) (hsz : sz ≤ MAXVA)
    (hselu : ∀ w, w * PGSIZE < sz → sel u w = true) (hselt : ∀ w, w * PGSIZE < sz → sel t w = true)
    {n : Nat} (h : Forest lay sel R F s) (hfuel : sz ≤ (v + n) * PGSIZE)
    (hnone : ∀ w, below sz v w → ent R s.mem t w = none) :
    wp (uvmcopy_loop lay old new sz n (v * PGSIZE)) (fun r s' =>
      r = 0 ∧ Copied lay sel R F u t sz v s s' ∨ r = -1 ∧ Cleared lay sel R F t sz s s') E s := by
  -- on the rounds; the pages from `v` on are still to be copied
  induction n generalizing v s with
  | zero => exact .inl ⟨rfl, .done h hfuel⟩
  | succ n ih =>
    rw [uvmcopy_loop]
    by_cases hlt : v * PGSIZE < sz
    case neg =>
      rw [if_neg hlt]
      exact .inl ⟨rfl, .done h (by omega)⟩
    have hv : v < NPAGES := page_div v ▸ div_lt (by omega)
    have hnext : v * PGSIZE + PGSIZE = (v + 1) * PGSIZE := (succ_mul v PGSIZE).symm
    have htv := hnone v ⟨le_rfl, hlt⟩
    have hnone' : ∀ w, below sz (v + 1) w → ent R s.mem t w = none := fun w hw =>
      hnone w ⟨by have := hw.1; omega, hw.2⟩
    -- nothing there: the next round starts from the same state
    have hhole : ent R s.mem u v = none → wp (uvmcopy_loop lay old new sz n (v * PGSIZE + PGSIZE))
        (fun r s' => r = 0 ∧ Copied lay sel R F u t sz v s s' ∨ r = -1 ∧
        Cleared lay sel R F t sz s s') E s := by
      intro huv
      rw [hnext]
      refine (ih h (by rwa [add_assoc, add_comm 1 n]) hnone').post ?_
      exact fun r s' hr => hr.imp_left fun hc => ⟨hc.1, hc.2.skip huv htv hv⟩
    rw [if_pos hlt]
    refine (wp_walk_read (page_lt hv)).seq ?_
    rintro pt s0 ⟨rfl, rfl⟩
    cases hp : node s0.mem old (.leaf (ix 2 (v * PGSIZE)) (ix 1 (v * PGSIZE))) with
    | none => exact hhole ((ent_of_root hu).trans (entry_of_no_node hp))
    | some p =>
      have hent := (ent_of_root (m := s0.mem) (v := v) hu).trans (entry_of_node hp)
      rw [map_some]
      dsimp only
      rw [wp_bind, wp_loadPte]
      generalize hedef : pte s0.mem p (PX 0 (v * PGSIZE)) = e at hent
      by_cases hval : e &&& PTE_V = 0
      · rw [if_pos hval] at hent
        rw [if_pos hval]
        exact hhole hent
      rw [if_neg hval] at hent
      rw [if_neg hval]
      refine wp_kalloc_fresh hlay h (fun _ => ?_) fun pg s1 hfresh => ?_
      · exact (wp_uvmcopy_err h ht hsz hselt hlt hnone).post fun _ _ hr => .inr hr
      rw [wp_bind, wp_get, wp_bind, wp_memmove]
      have hsrc : SamePage s0.mem s1.mem (PTE2PA e) :=
        hfresh.keeps.page _ _ trivial (own_leaf hv (hselu v hlt) hent)
      have hflags : PTE_FLAGS e < 1024 := by
        rw [PTE_FLAGS_eq]
        exact mod_lt _ (by decide)
      have hrwx : rwx (PTE_FLAGS e) ≠ 0 := by
        rw [rwx_flags]
        rw [ent_of_root hu] at hent
        exact (h.shape u old hu).leaves _ _ _ e hent
      refine (hfresh.copy fun x => s1.mem (PTE2PA e + x)).wp_map_or_free hlay ht hflags hrwx
        (fun _ => hselt v hlt) (.inl ⟨hv, htv⟩) (fun s2 _ _ hedit => ?_)
        fun s2 _ _ _ hbytes hedit => ?_
      · refine (wp_uvmcopy_err hedit.forest ht hsz hselt hlt fun w hw => ?_).post fun r s' hr =>
          .inr ⟨hr.1, hr.2.of_edit hedit (fun _ hc => hc.elim) fun _ _ _ => rfl⟩
        rw [hedit.entries w (page_div w ▸ div_lt (by have := hw.2; omega)), hnone w hw]
      · rw [hnext]
        refine (ih hedit.forest (by rwa [add_assoc, add_comm 1 n]) fun w hw => ?_).post ?_
        · have := hw.1
          rw [hedit.entries w (page_div w ▸ div_lt (by have := hw.2; omega)), mapped,
            if_neg (by omega), hnone' w hw]
        · rintro r s' (⟨hr, hc⟩ | ⟨hr, hc⟩)
          · refine .inl ⟨hr, hc.cons hut hsz hselu hselt hlt hent (valid_iff.mpr hval)
              hfresh.page hedit fun i hi => ?_⟩
            rw [hbytes i hi, hsrc _ (by omega) (by omega)]
          · refine .inr ⟨hr, hc.of_edit hedit ?_ fun w _ hw => if_neg ?_⟩
            · rintro w rfl
              exact hlt
            · intro hwv
              obtain rfl : w = v := by omega
              exact hw hlt

/-- **`uvmcopy` copies what is there.**  Take any page table of a parent, with any
    holes and any leaf flags below `sz`, and a page table of a child that is empty
    below `sz`, in a well-formed memory with any number of free pages.  `uvmcopy`
    returns, and:

    * on 0 the child has below `sz` exactly what the parent has, with the same
      flags and the same bytes, each page in a physical page of its own that was
      free before;
    * on -1 the child has nothing below `sz`, and whatever is in use now was in use
      before or is a page-table page of the child.

    The entries of the child above `sz`, the parent and all other pages in use are
    as before. -/
theorem uvmcopy_copies [DecidableEq T] (hlay : lay.Ok) (h : Forest lay sel R F s)
    (hu : R.root u = some old) (ht : R.root t = some new) (hut : u ≠ t) (hsz : sz ≤ MAXVA)
    (hselu : ∀ v, v * PGSIZE < sz → sel u v = true) (hselt : ∀ v, v * PGSIZE < sz → sel t v = true)
    (hempty : ∀ v, v * PGSIZE < sz → ent R s.mem t v = none) :
    ∃ r s', uvmcopy lay old new sz s = .ok r s' ∧ Forest lay sel R F s' ∧
      (r = 0 ∧ (∀ v, v * PGSIZE < sz → space R s'.mem t v = space R s.mem u v) ∧
          (∀ v e, v * PGSIZE < sz → ent R s'.mem t v = some e → PTE2PA e ∈ s.freelist) ∧
          (∀ v w e e', v * PGSIZE < sz → w * PGSIZE < sz → ent R s'.mem t v = some e →
            ent R s'.mem t w = some e' → PTE2PA e = PTE2PA e' → v = w) ∨
        r = -1 ∧ (∀ v, v * PGSIZE < sz → ent R s'.mem t v = none) ∧
          ∀ pg, used lay s' pg → used lay s pg ∨ ∃ n, node s'.mem new n = some pg) ∧
      (∀ v, v < NPAGES → sz ≤ v * PGSIZE → ent R s'.mem t v = ent R s.mem t v) ∧
      (∀ v, ent R s'.mem u v = ent R s.mem u v) ∧
      (∀ v, v * PGSIZE < sz → space R s'.mem u v = space R s.mem u v) ∧
      Keeps sel R F (Outside t (below sz 0)) s s' := by
  have hpages : ∀ v, v * PGSIZE < sz → v < NPAGES := fun v hv => page_div v ▸ div_lt (by omega)
  have hown : ∀ w, below sz 0 w → own sel R s.mem (.leaf t w) = none := by
    intro w hw
    rw [own, if_pos ⟨hpages w hw.2, hselt w hw.2⟩, hempty w hw.2, map_none]
  have hfuel : sz ≤ (0 + (sz / PGSIZE + 1)) * PGSIZE := by
    rw [PGSIZE_eq]
    omega
  have hloop := (wp_uvmcopy_loop (E := fun _ _ => False) hlay hu ht hut hsz hselu hselt h hfuel
    fun w hw => hempty w hw.2).returns
  rw [zero_mul] at hloop
  obtain ⟨r, s', hrun, hpost⟩ := hloop
  refine ⟨r, s', hrun, ?_⟩
  -- both outcomes are edits of the child
  obtain ⟨M, hedit, hout, habove⟩ : ∃ M, Edit lay sel R F t (below sz 0) s M s' ∧
      (r = 0 ∧ (∀ v, v * PGSIZE < sz → space R s'.mem t v = space R s.mem u v) ∨
        r = -1 ∧ ∀ v, v * PGSIZE < sz → ent R s'.mem t v = none) ∧
      ∀ v, v < NPAGES → sz ≤ v * PGSIZE → ent R s'.mem t v = ent R s.mem t v := by
    rcases hpost with ⟨hr, hc⟩ | ⟨hr, hc⟩
    · refine ⟨_, hc.edit, .inl ⟨hr, fun v hv => hc.same v ⟨zero_le v, hv⟩⟩, fun v hv hge => ?_⟩
      exact hc.rest v hv fun hb => absurd hb.2 (by omega)
    · refine ⟨_, hc, .inr ⟨hr, fun v hv => ?_⟩, fun v hv hge => ?_⟩
      · rw [Edit.entries hc v (hpages v hv), if_pos hv]
      · rw [Edit.entries hc v hv, if_neg (by omega)]
  refine ⟨hedit.forest, ?_, habove, hedit.keeps.ent fun _ => hut,
    fun v hv => hedit.space_other hut (hpages v hv) (hselu v hv), hedit.keeps⟩
  rcases hout with ⟨hr, hsame⟩ | ⟨hr, hnone⟩
  · refine .inl ⟨hr, hsame, fun v e hv he => ?_, fun v w e e' hv hw he he' heq => ?_⟩
    · have hpg := own_leaf (hpages v hv) (hselt v hv) he
      have hpage := (hedit.forest.owns.used_of_own hpg).1
      have hfree := hedit.not_used h hown ⟨zero_le v, hv⟩ hpg
      exact not_not.mp fun hc => hfree ⟨hpage, hc⟩
    · have h1 := own_leaf (hpages v hv) (hselt v hv) he
      have h2 := own_leaf (hpages w hw) (hselt w hw) he'
      rw [← heq] at h2
      exact (Owner.leaf.inj (hedit.forest.owns.inj h1 h2)).2
  · refine .inr ⟨hr, hnone, fun pg => hedit.used_or_node h ht fun w hw => ?_⟩
    rw [own, if_pos ⟨hpages w hw.2, hselt w hw.2⟩, hnone w hw.2, map_none]

end Copy

/-! A memory of eight pages, with two empty trees. -/

def eightLayout : Layout := ⟨KERNBASE + PGSIZE, KERNBASE, PHYSTOP - 8 * PGSIZE⟩

/-- The root of the parent (`true`) and of the child. -/
def eightRoot (b : Bool) : Nat := if b then PHYSTOP - PGSIZE else PHYSTOP - 2 * PGSIZE

def eightTrees : Handles Bool Empty := ⟨fun b => some (eightRoot b), fun _ => none⟩

def eightPages : Phys where
  mem := fun _ => 0
  freelist :=
    [PHYSTOP - 8 * PGSIZE, PHYSTOP - 7 * PGSIZE, PHYSTOP - 6 * PGSIZE, PHYSTOP - 5 * PGSIZE,
    PHYSTOP - 4 * PGSIZE, PHYSTOP - 3 * PGSIZE]
  refcount := fun n => if n = eightRoot true / PGSIZE ∨ n = eightRoot false / PGSIZE then 1 else 0

theorem eightLayout_ok : eightLayout.Ok :=
  ⟨by decide, by decide, by decide, by decide, by decide, by decide⟩

theorem eightPages_used (pg : Nat) :
    used eightLayout eightPages pg ↔ pg = eightRoot true ∨ pg = eightRoot false := by
  show (pg % PGSIZE = 0 ∧ PHYSTOP - 8 * PGSIZE ≤ pg ∧ pg < PHYSTOP) ∧ pg ∉ eightPages.freelist ↔
    pg = PHYSTOP - PGSIZE ∨ pg = PHYSTOP - 2 * PGSIZE
  have hstop : PHYSTOP = 2281701376 := rfl
  simp only [eightPages, hstop, PGSIZE_eq, List.mem_cons, List.not_mem_nil, or_false]
  omega

theorem eightPages_forest : Forest eightLayout (fun _ _ => true) eightTrees [] eightPages := by
  refine .of_zero (fun _ => rfl) ⟨by decide, ?_, ?_, ?_⟩ ⟨?_, fun _ => List.not_mem_nil,
    List.nodup_nil, ?_⟩
  · intro pg hpg
    simp only [eightPages, List.mem_cons, List.not_mem_nil, or_false] at hpg
    rcases hpg with rfl | rfl | rfl | rfl | rfl | rfl <;> exact ⟨by decide, by decide, by decide⟩
  · intro pg hpg
    simp only [eightPages, List.mem_cons, List.not_mem_nil, or_false] at hpg
    rcases hpg with rfl | rfl | rfl | rfl | rfl | rfl <;> rfl
  · intro pg hpg
    rcases (eightPages_used pg).mp hpg with rfl | rfl <;> rfl
  · rintro (b | x) (c | y) pg hb hc
    · have he : eightRoot b = eightRoot c := some.inj (hb.trans hc.symm)
      have hinj : ∀ b c, eightRoot b = eightRoot c → b = c := by decide
      rw [hinj b c he]
    · exact y.elim
    · exact x.elim
    · exact x.elim
  · intro pg
    rw [eightPages_used]
    constructor
    · rintro (rfl | rfl)
      · exact .inr ⟨.inl true, rfl⟩
      · exact .inr ⟨.inl false, rfl⟩
    · rintro (hm | ⟨b | x, hb⟩)
      · cases hm
      · cases b with
        | true => exact .inl (some.inj hb).symm
        | false => exact .inr (some.inj hb).symm
      · exact x.elim

/-- A parent with one page, which is not for the user. -/
def Guarded (s : Phys) : Prop :=
  Forest eightLayout (fun _ _ => true) eightTrees [] s ∧
    (∃ pg, ent eightTrees s.mem true 1 = some (leafEntry pg (PTE_R ||| PTE_W))) ∧
    ∀ v, ent eightTrees s.mem false v = none

/-- Map a fresh page at page 1 of the parent. -/
def mapGuard : VmM Unit := do
  let pg ← kalloc
  if pg = 0 then return ()
  else do
    if (← mappages (eightRoot true) (1 * PGSIZE) PGSIZE pg (PTE_R ||| PTE_W)) ≠ 0 then do
      kfree eightLayout pg
      return ()
    else return ()

theorem exists_guarded : ∃ s, Guarded s := by
  have hzero : ∀ b v, ent eightTrees eightPages.mem b v = none :=
    fun b v => ent_of_zero (fun _ => rfl) v
  have hrun : wp mapGuard (fun _ s => Guarded s) (fun _ _ => False) eightPages := by
    refine wp_kalloc_fresh eightLayout_ok eightPages_forest nofun fun pg s1 hfresh => ?_
    refine hfresh.wp_map_or_free (t := true) eightLayout_ok rfl (by decide) (by decide)
      (fun _ => rfl) (.inl ⟨by decide, hzero true 1⟩) (fun s2 hlen _ _ => ?_)
      fun s2 _ _ _ _ hedit => ?_
    · -- six free pages are enough
      have hle := missing_le eightPages.mem (eightRoot true) (1 * PGSIZE)
      have hsix : eightPages.freelist.length = 6 := rfl
      omega
    · refine ⟨hedit.forest, ⟨pg % 2 ^ 64, ?_⟩, fun v => ?_⟩
      · rw [hedit.entries 1 (by decide)]
        rfl
      · rw [hedit.keeps.ent (t := false) (fun _ => Bool.false_ne_true) v, hzero]
  obtain ⟨-, s, -, hs⟩ := hrun.returns
  exact ⟨s, hs⟩

theorem uvmcopy_copies_guard : ∃ s, Guarded s ∧ ∃ r s',
    uvmcopy eightLayout (eightRoot true) (eightRoot false) (3 * PGSIZE) s = .ok r s' ∧
    (r = 0 ∧ space eightTrees s'.mem false 1 = space eightTrees s.mem true 1 ∨
      r = -1 ∧ ent eightTrees s'.mem false 1 = none) := by
  obtain ⟨s, hs⟩ := exists_guarded
  obtain ⟨r, s', hrun, -, hout, -⟩ :=
    uvmcopy_copies (u := true) (t := false) eightLayout_ok hs.1 rfl rfl (by decide)
    (show 3 * PGSIZE ≤ MAXVA by decide) (fun _ _ => rfl) (fun _ _ => rfl) fun v _ => hs.2.2 v
  refine ⟨s, hs, r, s', hrun, hout.imp (fun h => ⟨h.1, h.2.1 1 (by decide)⟩) fun h =>
    ⟨h.1, h.2.1 1 (by decide)⟩⟩

end NoviceKernel.VM
