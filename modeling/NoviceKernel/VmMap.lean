import NoviceKernel.VmSpec

/-! # Page tables as maps

    The entries of a tree are a map from page numbers (`entry`).  `mappages`
    adds a run of pages to it, or the first part of one, and takes a free page for
    every page-table page that it lacks; `uvmunmap` removes a range.

    With the physical page and the flags of each entry the tree is a finite map
    from virtual pages (`mapping`), and the functions are operations of that
    map. -/

namespace NoviceKernel.VM

open Hoare Ledger List Option Nat

/-- Number of virtual pages. -/
def NPAGES : Nat := MAXVA / PGSIZE

theorem NPAGES_eq : NPAGES = 2 ^ 26 := rfl

/-- The entry of page number `v`. -/
def entry (m : Nat → UInt8) (root v : Nat) : Option Nat := lookup m root (v * PGSIZE)

variable {v : Nat}

theorem page_lt (h : v < NPAGES) : v * PGSIZE < MAXVA := by
  rw [NPAGES_eq] at h
  unfold MAXVA
  rw [PGSIZE_eq]
  omega

theorem page_div (v : Nat) : v * PGSIZE / PGSIZE = v := Nat.mul_div_cancel _ (by decide)

variable {va : Nat}

theorem div_lt (h : va < MAXVA) : va / PGSIZE < NPAGES := by
  rw [NPAGES_eq, PGSIZE_eq]
  unfold MAXVA at h
  omega

variable {m : Nat → UInt8}

/-- Every address of a page has the same entry. -/
theorem lookup_eq {root : Nat} (h : va < MAXVA) :
    lookup m root va = entry m root (va / PGSIZE) := by
  obtain ⟨h2, h1, h0⟩ := (ix_inj h (page_lt (div_lt h))).mpr (page_div _).symm
  unfold entry lookup
  rw [h2, h1, h0]

variable {n pa perm : Nat} {t : Node} {do_free : Bool}

section Entries

variable {X : Type} {lay : Layout} {rest : X → Option Nat} {F : List Nat} {root : Nat}
  {s s' s'' : Phys} {E : Stop → Phys → Prop} {M M' : Nat → Option Nat} {c : Nat} {p : Nat}
  {pg : Nat} {r : Int}

/-- No page-table page is above `MAXVA` that was not. -/
def StaysLow (root : Nat) (s s' : Phys) : Prop :=
  ∀ i : Fin 512, 256 ≤ (i : Nat) → node s.mem root (.mid i) = none →
    node s'.mem root (.mid i) = none

/-- The entries of the tree are now `M`, its page-table pages and the others are
    left alone. -/
structure Maps (lay : Layout) (rest : X → Option Nat) (F : List Nat) (root : Nat) (s : Phys)
    (M : Nat → Option Nat) (s' : Phys) : Prop where
  tree : TreeOk lay rest F root s'
  kept : Kept rest F s s'
  mono : ∀ t p, node s.mem root t = some p → node s'.mem root t = some p
  low : StaysLow root s s'
  entries : ∀ v, v < NPAGES → entry s'.mem root v = M v

theorem Maps.refl (h : TreeOk lay rest F root s) : Maps lay rest F root s (entry s.mem root) s :=
  ⟨h, .refl s, fun _ _ hp => hp, fun _ _ hn => hn, fun _ _ => rfl⟩

theorem Maps.trans (h : Maps lay rest F root s M s') (h' : Maps lay rest F root s' M' s'') :
    Maps lay rest F root s M' s'' :=
  ⟨h'.tree, h.kept.trans h'.kept, fun t p hp => h'.mono t p (h.mono t p hp),
    fun i hi hn => h'.low i hi (h.low i hi hn), h'.entries⟩

theorem Maps.congr (h : Maps lay rest F root s M s') (hM : ∀ v, v < NPAGES → M' v = M v) :
    Maps lay rest F root s M' s' :=
  ⟨h.tree, h.kept, h.mono, h.low, fun v hv => (h.entries v hv).trans (hM v hv).symm⟩

theorem ix_two_lt (h : va < MAXVA) : (ix 2 va : Nat) < 256 := by
  show PX 2 va < 256
  rw [PX_eq]
  unfold MAXVA at h
  omega

theorem Grew.maps (hva : va < MAXVA) (h : Grew lay rest F root (onPath va) s s') :
    Maps lay rest F root s (entry s.mem root) s' := by
  refine ⟨h.tree, h.kept, h.places.mono, fun i hi hn => ?_, fun _ _ => h.entries _ _ _⟩
  by_contra hsome
  rcases h.places.only _ hsome with hc | hc | hc
  · exact hc hn
  · have := ix_two_lt hva
    rw [← Node.mid.inj hc] at this
    omega
  · cases hc

/-- The entry of one page is set to a leaf, or cleared. -/
theorem TreeOk.set_page (h : TreeOk lay rest F root s) {p e : Nat} (hv : v < NPAGES)
    (hp : node s.mem root (.leaf (ix 2 (v * PGSIZE)) (ix 1 (v * PGSIZE))) = some p)
    (he : e < 2 ^ 64) (hleaf : valid e = true → rwx e ≠ 0)
    (hs' : s' = { s with mem := Bytes.store s.mem (p + 8 * PX 0 (v * PGSIZE)) 8 e }) :
    Maps lay rest F root s
        (fun w => if w = v then (if valid e then some e else none) else entry s.mem root w) s' ∧
      ∀ t, node s'.mem root t = node s.mem root t := by
  obtain ⟨htree, hnode, hentry, hkept⟩ := h.set (k := ix 0 (v * PGSIZE)) hp he hleaf hs'
  refine ⟨⟨htree, hkept, fun t p hp => (hnode t).trans hp, fun i _ hn => (hnode _).trans hn,
      fun w hw =>
    (hentry _ _ _).trans (if_congr ?_ rfl rfl)⟩, hnode⟩
  rw [ix_inj (page_lt hw) (page_lt hv), page_div, page_div]

/-! ## `mappages` -/

/-- The map with `n` pages from `v` on added. -/
def mapped (M : Nat → Option Nat) (v n pa perm : Nat) : Nat → Option Nat := fun w =>
  if v ≤ w ∧ w < v + n then some (leafEntry ((pa + (w - v) * PGSIZE) % 2 ^ 64) perm) else M w

/-- What a walk for `mappages` finds at its end. -/
theorem entry_none_iff
    (hp : node s.mem root (.leaf (ix 2 (v * PGSIZE)) (ix 1 (v * PGSIZE))) = some p) :
    entry s.mem root v = none ↔ pte s.mem p (PX 0 (v * PGSIZE)) &&& PTE_V = 0 := by
  have hentry : entry s.mem root v = validEntry s.mem p (ix 0 (v * PGSIZE)) := by
    unfold entry lookup entryAt
    rw [hp, bind_some]
  have hval : valid (pte s.mem p (ix 0 (v * PGSIZE))) = true ↔
    pte s.mem p (PX 0 (v * PGSIZE)) &&& PTE_V ≠ 0 :=
    valid_iff
  rw [hentry, ← not_iff_not, ← ne_eq (_ &&& _), ← hval]
  unfold validEntry
  split
  · next h => exact ⟨fun _ => h, fun _ => nofun⟩
  · next h => exact ⟨fun hc => absurd rfl hc, fun hc => absurd hc h⟩

@[simp] theorem mapped_zero (v pa perm : Nat) : mapped M v 0 pa perm = M :=
  funext fun _ => if_neg (by omega)

/-- One page, then the pages after it. -/
theorem mapped_succ (w : Nat) :
    mapped (mapped M v 1 pa perm) (v + 1) n ((pa + PGSIZE) % 2 ^ 64) perm w =
      mapped M v (n + 1) pa perm w := by
  unfold mapped
  by_cases hw : v + 1 ≤ w ∧ w < v + 1 + n
  · have hpa : ((pa + PGSIZE) % 2 ^ 64 + (w - (v + 1)) * PGSIZE) % 2 ^ 64 =
        (pa + (w - v) * PGSIZE) % 2 ^ 64 := by
      obtain ⟨d, rfl⟩ : ∃ d, w = v + 1 + d := ⟨w - (v + 1), by omega⟩
      rw [PGSIZE_eq]
      omega
    rw [if_pos hw, if_pos (by omega), hpa]
  · rw [if_neg hw]
    exact if_congr (by omega) rfl rfl

/-- The entry that is written for one page. -/
theorem Maps.map_page {u : Phys} (h : Maps lay rest F root s (entry s.mem root) s')
    (hperm : perm < 1024) (hrwx : rwx perm ≠ 0) (hv : v < NPAGES) (hpa : pa < 2 ^ 64)
    (hp : node s'.mem root (.leaf (ix 2 (v * PGSIZE)) (ix 1 (v * PGSIZE))) = some p)
    (hu : u =
        { s' with mem := Bytes.store s'.mem (p + 8 * PX 0 (v * PGSIZE)) 8 (leafEntry pa perm) }) :
    Maps lay rest F root s (mapped (entry s.mem root) v 1 pa perm) u ∧
    ∀ t, node u.mem root t = node s'.mem root t := by
  obtain ⟨hset, hnode⟩ := h.tree.set_page hv hp (leafEntry_lt hperm hpa)
    (fun _ => by rw [rwx_leafEntry hperm]; exact hrwx) hu
  refine ⟨(h.trans hset).congr fun w hw => ?_, hnode⟩
  unfold mapped
  by_cases hwv : w = v
  · rw [if_pos hwv, if_pos (by omega), if_pos (valid_leafEntry hperm), hwv, Nat.sub_self,
      Nat.zero_mul, Nat.add_zero, Nat.mod_eq_of_lt hpa]
  · rw [if_neg hwv, if_neg (by omega), h.entries w hw]

/-- The places of the page-table pages that the pages from `v` to `v + n` need
    below the root. -/
def passed (v n : Nat) (t : Node) : Prop := ∃ w, v ≤ w ∧ w ≤ v + n ∧ onPath (w * PGSIZE) t

/-- What `mappages` for the pages from `v` to `v + n` comes to: the first `c` of
    them are mapped; it fails only when memory is out and a page-table page is
    still missing. -/
structure Mapped (lay : Layout) (rest : X → Option Nat) (F : List Nat) (root v n pa perm : Nat)
  (s : Phys)
    (r : Int) (c : Nat) (s' : Phys) : Prop where
  result : r = 0 ∧ c = n + 1 ∧ (∀ t, passed v n t → node s'.mem root t ≠ none) ∨
    r = -1 ∧ c ≤ n ∧ s'.freelist = [] ∧ ∃ t, passed v n t ∧ node s'.mem root t = none
  /-- The pages it maps were not mapped. -/
  fresh : ∀ w, v ≤ w → w < v + c → entry s.mem root w = none
  maps : Maps lay rest F root s (mapped (entry s.mem root) v c pa perm) s'
  places : Places root (passed v n) s s'

theorem passed_self (ht : onPath (v * PGSIZE) t) : passed v n t :=
  ⟨v, le_rfl, by omega, ht⟩

theorem passed_next (ht : passed (v + 1) n t) : passed v (n + 1) t := by
  obtain ⟨w, h1, h2, hw⟩ := ht
  exact ⟨w, by omega, by omega, hw⟩

theorem passed_succ (ht : passed v (n + 1) t) : onPath (v * PGSIZE) t ∨ passed (v + 1) n t := by
  obtain ⟨w, h1, h2, hw⟩ := ht
  by_cases hv : w = v
  · exact .inl (hv ▸ hw)
  · exact .inr ⟨w, by omega, by omega, hw⟩

/-- The first page is mapped, then those after it. -/
theorem Mapped.cons (hv : v + (n + 1) < NPAGES) (hv0 : entry s.mem root v = none)
    (hone : Maps lay rest F root s (mapped (entry s.mem root) v 1 pa perm) s')
    (hplaces : Places root (onPath (v * PGSIZE)) s s')
    (hthere : ∀ t, onPath (v * PGSIZE) t → node s'.mem root t ≠ none)
    (h : Mapped lay rest F root (v + 1) n ((pa + PGSIZE) % 2 ^ 64) perm s' r c s'') :
    Mapped lay rest F root v (n + 1) pa perm s r (c + 1) s'' where
  result := by
    rcases h.result with ⟨hr, hc, hall⟩ | ⟨hr, hc, hnil, t, ht, hno⟩
    · refine .inl ⟨hr, by omega, fun t ht => ?_⟩
      rcases passed_succ ht with hv | ht
      · exact h.places.present (hthere t hv)
      · exact hall t ht
    · exact .inr ⟨hr, by omega, hnil, t, passed_next ht, hno⟩
  fresh := by
    intro w h1 h2
    by_cases hw : w = v
    · rw [hw, hv0]
    · have hc : c ≤ n + 1 := by rcases h.result with ⟨-, hc, -⟩ | ⟨-, hc, -⟩ <;> omega
      have := h.fresh w (by omega) (by omega)
      rw [hone.entries w (by omega)] at this
      unfold mapped at this
      rwa [if_neg (by omega)] at this
  maps := by
    refine (hone.trans h.maps).congr fun w hw => ?_
    rw [← mapped_succ]
    unfold mapped
    rw [hone.entries w hw]
    rfl
  places := (hplaces.weaken fun _ => passed_self).trans (h.places.weaken fun _ => passed_next)

theorem wp_mappages_loop (hlay : lay.Ok) (hperm : perm < 1024) (hrwx : rwx perm ≠ 0) {fuel : Nat}
    (h : TreeOk lay rest F root s) (hfuel : n < fuel) (hv : v + n < NPAGES) (hpa : pa < 2 ^ 64)
    (hnone : ∀ w, v ≤ w → w ≤ v + n → entry s.mem root w = none ∨ ∀ e t, E e t) :
    wp (mappages_loop root ((v + n) * PGSIZE) perm fuel (v * PGSIZE) pa)
      (fun r s' => ∃ c, Mapped lay rest F root v n pa perm s r c s') E s := by
  -- on the rounds; `n` is the number of pages after this one
  induction fuel generalizing n v pa s with
  | zero => omega
  | succ fuel ih =>
    rw [mappages_loop, wp_bind]
    have hva : v * PGSIZE < MAXVA := page_lt (by omega)
    refine (wp_walk hlay h hva).post ?_
    rintro r s1 ⟨hg, ⟨rfl, hnil, t, ht, hno⟩ | ⟨p, rfl, hp, hthere⟩⟩
    · refine ⟨0, .inr ⟨rfl, zero_le _, hnil, t, passed_self ht, hno⟩, fun w h1 h2 => by omega, ?_,
        hg.places.weaken fun _ => passed_self⟩
      rw [mapped_zero]
      exact hg.maps hva
    · dsimp only
      rw [wp_bind, wp_loadPte]
      have hfree : entry s.mem root v = none ↔ pte s1.mem p (PX 0 (v * PGSIZE)) &&& PTE_V = 0 := by
        rw [← (hg.maps hva).entries v (by omega), entry_none_iff hp]
      split
      · next hval =>
        rcases hnone v le_rfl (by omega) with hn | hE
        · exact absurd (hfree.mp hn) hval
        · exact hE _ _
      next hval =>
      rw [wp_bind, wp_storePte]
      have hv0 := hfree.mpr (not_not.mp hval)
      have hset := fun s2 => (hg.maps hva).map_page (u := s2) hperm hrwx (by omega) hpa hp
      unfold leafEntry at hset
      dsimp only
      generalize hs2 : ({ s1 with mem := _ } : Phys) = s2
      obtain ⟨hone, hsame⟩ := hset s2 hs2.symm
      have hplaces : Places root (onPath (v * PGSIZE)) s s2 := hg.places.trans (.of_eq hsame)
      have hthere2 : ∀ t, onPath (v * PGSIZE) t → node s2.mem root t ≠ none := by
        intro t ht
        rw [hsame]
        exact hthere t ht
      cases n with
      | zero =>
        rw [add_zero, if_pos rfl]
        refine ⟨1, .inl ⟨rfl, rfl, ?_⟩, fun w h1 h2 => ?_, hone,
          hplaces.weaken fun _ => passed_self⟩
        · rintro t ⟨w, h1, h2, hw⟩
          obtain rfl : w = v := by omega
          exact hthere2 t hw
        · obtain rfl : w = v := by omega
          exact hv0
      | succ n =>
        have ha : (v * PGSIZE + PGSIZE) % 2 ^ 64 = (v + 1) * PGSIZE := by
          rw [NPAGES_eq] at hv
          rw [PGSIZE_eq]
          omega
        have hne : v * PGSIZE ≠ (v + (n + 1)) * PGSIZE := by
          rw [PGSIZE_eq]
          omega
        rw [if_neg hne, ha, ← add_assoc, add_right_comm v n 1]
        refine (ih hone.tree (by omega) (by omega) (mod_lt _ (by decide)) ?_).post ?_
        · intro w h1 h2
          rw [hone.entries w (by omega)]
          unfold mapped
          rw [if_neg (by omega)]
          exact hnone w (by omega) (by omega)
        · rintro r s3 ⟨c, hrest⟩
          exact ⟨c + 1, hrest.cons hv hv0 hone hplaces hthere2⟩

/-- `mappages` adds the pages of its range, or a first part of them when memory
    is out. A page that is mapped already stops it. -/
theorem wp_mappages (hlay : lay.Ok) {size : Nat} (hperm : perm < 1024) (hrwx : rwx perm ≠ 0)
    (h : TreeOk lay rest F root s) (hsize : 0 < size) (hva : va + size ≤ MAXVA) (hpa : pa < 2 ^ 64)
    (hnone : ∀ w, va / PGSIZE ≤ w → w ≤ (va + size - 1) / PGSIZE →
      entry s.mem root w = none ∨ ∀ e t, E e t) :
    wp (mappages root va size pa perm) (fun r s' => ∃ c, Mapped lay rest F root (va / PGSIZE)
      ((va + size - 1) / PGSIZE - va / PGSIZE) pa perm s r c s') E s := by
  have hle : va / PGSIZE ≤ (va + size - 1) / PGSIZE := Nat.div_le_div_right (by omega)
  have hlast : (va + size - 1) / PGSIZE < NPAGES := div_lt (by omega)
  have hlt : (va + size - 1) % 2 ^ 64 = va + size - 1 :=
    Nat.mod_eq_of_lt (by unfold MAXVA at hva; omega)
  rw [mappages, if_neg (by omega), hlt]
  unfold PGROUNDDOWN
  have hn : (va + size - 1) / PGSIZE = va / PGSIZE + ((va + size - 1) / PGSIZE - va / PGSIZE) := by
    omega
  rw [hn, Nat.add_sub_cancel_left]
  refine wp_mappages_loop hlay hperm hrwx h ?_ (by omega) hpa fun w h1 h2 => hnone w h1 (by omega)
  exact lt_of_le_of_lt (Nat.sub_le _ _) (hlast.trans (Nat.lt_succ_self _))

/-- `mappages` of one page writes to the heap only. -/
theorem wp_mappages_below (hlay : lay.Ok) (h : TreeOk lay rest F root s) (hv : v < NPAGES) :
    wp (mappages root (v * PGSIZE) PGSIZE pa perm) (fun _ s' => SameBelow lay s s')
      (fun _ _ => True) s := by
  have hva := page_lt hv
  have hlast : PGROUNDDOWN ((v * PGSIZE + PGSIZE - 1) % 2 ^ 64) = v * PGSIZE := by
    rw [NPAGES_eq] at hv
    unfold PGROUNDDOWN
    rw [PGSIZE_eq]
    omega
  have hfirst : PGROUNDDOWN (v * PGSIZE) = v * PGSIZE := by
    unfold PGROUNDDOWN
    rw [page_div]
  rw [mappages, if_neg (by decide), hlast, hfirst]
  show wp (mappages_loop root _ perm (NPAGES + 1) _ pa) _ _ s
  rw [mappages_loop, wp_bind]
  refine ((wp_walk hlay h hva).and (wp_walk_below (E := fun _ _ => True) hlay h hva)).mono ?_
    fun _ _ he => he.1
  rintro r s1 ⟨⟨hg, ⟨rfl, -⟩ | ⟨p, rfl, hp, -⟩⟩, hbelow⟩
  · exact hbelow
  · have hge := (hg.tree.page hp).1.2.1
    dsimp only
    rw [wp_bind, wp_loadPte]
    split
    · trivial
    rw [wp_bind, wp_storePte, if_pos rfl]
    exact hbelow.trans fun x hx => if_neg (by dsimp only; omega)

/-! ## How many pages it takes -/

/-- The places where a tree has a page. -/
def tables (m : Nat → UInt8) (root : Nat) : Set Node := {t | (node m root t).isSome = true}

theorem mem_tables : t ∈ tables m root ↔ node m root t ≠ none := by
  rw [← isSome_iff_ne_none]
  rfl

instance : Finite Node := by
  let code : Node → Option (Fin 512 × Option (Fin 512)) := fun
    | .root => none
    | .mid i => some (i, none)
    | .leaf i j => some (i, some j)
  refine Finite.of_injective code fun t u h => ?_
  cases t <;> cases u <;> simp_all [code]

/-- The pages that `kalloc` can hand out. -/
def pages (lay : Layout) : Finset Nat :=
  (Finset.range PHYSTOP).filter fun pg => pg % PGSIZE = 0 ∧ lay.ends ≤ pg

theorem mem_pages : pg ∈ pages lay ↔ isPage lay pg := by
  unfold pages isPage
  rw [Finset.mem_filter, Finset.mem_range]
  exact ⟨fun h => ⟨h.2.1, h.2.2, h.1⟩, fun h => ⟨h.2.2, h.1, h.2.1⟩⟩

/-- What a tree gets, the free list loses. -/
theorem TreeOk.count (h : TreeOk lay rest F root s) (h' : TreeOk lay rest F root s') :
    s.freelist.length + (tables s.mem root).ncard =
      s'.freelist.length + (tables s'.mem root).ncard := by
  have hused : ∀ (s : Phys) pg, used lay s pg ↔ pg ∈ pages lay ∧ pg ∉ s.freelist := fun s pg => by
    rw [mem_pages]
    rfl
  exact h.owns.card_group h'.owns h.heap.nodup (fun pg hpg => mem_pages.mpr (h.heap.page pg hpg))
    (hused s) h'.heap.nodup (fun pg hpg => mem_pages.mpr (h'.heap.page pg hpg)) (hused s')

/-- How many of the places `T` have no page yet. -/
noncomputable def lacking (m : Nat → UInt8) (root : Nat) (T : Node → Prop) : Nat :=
  ({t | T t} \ tables m root).ncard

/-- `mappages` succeeds exactly if the free list has a page for each page-table
    page that its range lacks. -/
theorem Mapped.count (h : TreeOk lay rest F root s)
    (hm : Mapped lay rest F root v n pa perm s r c s') :
    r = 0 ∧ s'.freelist.length + lacking s.mem root (passed v n) = s.freelist.length ∧
        tables s'.mem root = tables s.mem root ∪ {t | passed v n t} ∨
      r = -1 ∧ s.freelist.length < lacking s.mem root (passed v n) ∧ s'.freelist = [] := by
  have hcount := h.count hm.maps.tree
  have hsub : tables s'.mem root ⊆ tables s.mem root ∪ {t | passed v n t} := by
    intro t ht
    exact (hm.places.only t (mem_tables.mp ht)).imp mem_tables.mpr id
  have hadd : ({t | passed v n t} \ tables s.mem root).ncard + (tables s.mem root).ncard =
      (tables s.mem root ∪ {t | passed v n t}).ncard := by
    rw [Set.ncard_sdiff_add_ncard, Set.union_comm]
  unfold lacking
  rcases hm.result with ⟨hr, -, hall⟩ | ⟨hr, -, hnil, t, ht, hno⟩
  · have heq : tables s'.mem root = tables s.mem root ∪ {t | passed v n t} := by
      refine hsub.antisymm ?_
      rintro t (ht | ht)
      · exact mem_tables.mpr (hm.places.present (mem_tables.mp ht))
      · exact mem_tables.mpr (hall t ht)
    refine .inl ⟨hr, ?_, heq⟩
    rw [heq] at hcount
    omega
  · have hlt : (tables s'.mem root).ncard < (tables s.mem root ∪ {t | passed v n t}).ncard := by
      refine Set.ncard_lt_ncard ⟨hsub, fun hsup => ?_⟩
      exact mem_tables.mp (hsup (.inr ht)) hno
    rw [hnil, length_nil] at hcount
    exact .inr ⟨hr, by omega, hnil⟩

/-- How many page-table pages a walk for `va` lacks. -/
def missing (m : Nat → UInt8) (root va : Nat) : Nat :=
  if (node m root (.leaf (ix 2 va) (ix 1 va))).isSome then 0
  else if (node m root (.mid (ix 2 va))).isSome then 1
  else 2

theorem missing_le (m : Nat → UInt8) (root va : Nat) : missing m root va ≤ 2 := by
  unfold missing
  split
  · omega
  · split <;> omega

theorem missing_congr {m' : Nat → UInt8} (va : Nat) (h : ∀ t, node m' root t = node m root t) :
    missing m' root va = missing m root va := by
  unfold missing
  rw [h, h]

theorem mid_of_leaf {i j : Fin 512} (h : .leaf i j ∈ tables m root) : .mid i ∈ tables m root := by
  rw [mem_tables] at h ⊢
  intro hmid
  rw [node_leaf, hmid] at h
  exact h rfl

theorem passed_zero (v : Nat) : {t | passed v 0 t} =
    {.mid (ix 2 (v * PGSIZE)), .leaf (ix 2 (v * PGSIZE)) (ix 1 (v * PGSIZE))} := by
  ext t
  constructor
  · rintro ⟨w, h1, h2, hw⟩
    obtain rfl : w = v := by omega
    exact hw
  · exact fun ht => passed_self ht

theorem lacking_passed_zero (v : Nat) :
    lacking m root (passed v 0) = missing m root (v * PGSIZE) := by
  unfold lacking missing
  rw [passed_zero]
  by_cases hleaf : (node m root (.leaf (ix 2 (v * PGSIZE)) (ix 1 (v * PGSIZE)))).isSome = true
  · have hl : .leaf (ix 2 (v * PGSIZE)) (ix 1 (v * PGSIZE)) ∈ tables m root := hleaf
    rw [if_pos hleaf, Set.insert_sdiff_of_mem _ (mid_of_leaf hl),
      Set.sdiff_eq_empty.mpr (Set.singleton_subset_iff.mpr hl), Set.ncard_empty]
  · have hone : ({.leaf (ix 2 (v * PGSIZE)) (ix 1 (v * PGSIZE))} : Set Node) \ tables m root =
        {.leaf (ix 2 (v * PGSIZE)) (ix 1 (v * PGSIZE))} :=
      sdiff_eq_left.mpr (Set.disjoint_singleton_left.mpr hleaf)
    rw [if_neg hleaf]
    by_cases hmid : (node m root (.mid (ix 2 (v * PGSIZE)))).isSome = true
    · have hm : .mid (ix 2 (v * PGSIZE)) ∈ tables m root := hmid
      rw [if_pos hmid, Set.insert_sdiff_of_mem _ hm, hone, Set.ncard_singleton]
    · have hm : .mid (ix 2 (v * PGSIZE)) ∉ tables m root := hmid
      rw [if_neg hmid, Set.insert_sdiff_of_notMem _ hm, hone, Set.ncard_pair (by simp)]

/-! ## `uvmunmap` -/

/-- The map without `n` pages from `v` on. -/
def unmapped (M : Nat → Option Nat) (v n : Nat) : Nat → Option Nat := fun w =>
  if v ≤ w ∧ w < v + n then none else M w

@[simp] theorem unmapped_zero (v : Nat) : unmapped M v 0 = M := funext fun _ => if_neg (by omega)

theorem unmapped_succ (w : Nat) :
    unmapped (unmapped M v 1) (v + 1) n w = unmapped M v (n + 1) w := by
  unfold unmapped
  by_cases hw : v + 1 ≤ w ∧ w < v + 1 + n
  · rw [if_pos hw, if_pos (by omega)]
  · rw [if_neg hw]
    exact if_congr (by omega) rfl rfl

/-- The physical pages that `uvmunmap` frees: none if it does not free. -/
def freed (do_free : Bool) (M : Nat → Option Nat) : Nat → Nat → List Nat
  | _, 0 => []
  | v, n + 1 => (if do_free then ((M v).map PTE2PA).toList else []) ++ freed do_free M (v + 1) n

theorem freed_false (v n : Nat) : freed false M v n = [] := by
  induction n generalizing v with
  | zero => rfl
  | succ n ih => exact ih (v + 1)

theorem freed_congr (h : ∀ w, v ≤ w → w < v + n → M' w = M w) :
    freed do_free M' v n = freed do_free M v n := by
  induction n generalizing v with
  | zero => rfl
  | succ n ih =>
    rw [freed, freed, h v le_rfl (by omega), ih fun w h1 h2 => h w (by omega) (by omega)]

/-- `if(do_free) kfree(pa)`: the page is in flight if it is to be freed. -/
theorem wp_kfree_if
    (h : TreeOk lay rest ((if do_free then [pg] else []) ++ F) root s) :
    wp (kfree_if lay do_free pg) (fun _ s' => TreeOk lay rest F root s' ∧
      (∀ t, node s'.mem root t = node s.mem root t) ∧
      (∀ i j k, entryAt s'.mem root i j k = entryAt s.mem root i j k) ∧ Kept rest F s s') E s := by
  cases do_free with
  | false => exact ⟨h, fun _ => rfl, fun _ _ _ => rfl, .refl s⟩
  | true =>
    refine (wp_kfree h.heap (h.other (.inr mem_cons_self)).1).post ?_
    rintro - _ rfl
    exact h.give

theorem wp_unmap_page (hv : v < NPAGES)
    (h : TreeOk lay rest (freed do_free (entry s.mem root) v 1 ++ F) root s) :
    wp (unmap_page lay root (v * PGSIZE) do_free)
      (fun _ s' => Maps lay rest F root s (unmapped (entry s.mem root) v 1) s' ∧
        ∀ t, node s'.mem root t = node s.mem root t) E s := by
  -- nothing to do if the page has no entry
  have hhole : entry s.mem root v = none →
      Maps lay rest F root s (unmapped (entry s.mem root) v 1) s ∧
        ∀ t, node s.mem root t = node s.mem root t := by
    intro hnone
    have hF : freed do_free (entry s.mem root) v 1 = [] := by
      rw [freed, hnone]
      cases do_free <;> rfl
    rw [hF] at h
    refine ⟨(Maps.refl h).congr fun w _ => ?_, fun _ => rfl⟩
    unfold unmapped
    by_cases hw : w = v
    · rw [if_pos (by omega), hw, hnone]
    · rw [if_neg (by omega)]
  rw [unmap_page]
  refine (wp_walk_read (page_lt hv)).seq ?_
  rintro r s1 ⟨hs, rfl⟩
  rw [hs]
  cases hp : node s.mem root (.leaf (ix 2 (v * PGSIZE)) (ix 1 (v * PGSIZE))) with
  | none =>
    refine hhole ?_
    unfold entry lookup entryAt
    rw [hp]
    rfl
  | some p =>
    have hentry : entry s.mem root v = validEntry s.mem p (ix 0 (v * PGSIZE)) := by
      unfold entry lookup entryAt
      rw [hp, bind_some]
    rw [map_some]
    dsimp only
    rw [wp_bind, wp_loadPte]
    generalize he : pte s.mem p (PX 0 (v * PGSIZE)) = e
    have he' : pte s.mem p (ix 0 (v * PGSIZE)) = e := he
    unfold validEntry at hentry
    rw [he'] at hentry
    by_cases hval : valid e = true
    · rw [if_pos hval] at hentry
      have hleaf : rwx e ≠ 0 := h.leaves _ _ _ e hentry
      have hF : freed do_free (entry s.mem root) v 1 = if do_free then [PTE2PA e] else [] := by
        rw [freed, hentry]
        cases do_free <;> rfl
      rw [hF] at h
      rw [if_neg (valid_iff.mp hval), if_neg (flags_ne_of_rwx hleaf)]
      refine (wp_kfree_if h).seq ?_
      rintro - s1 ⟨h1, hn1, he1, hk1⟩
      rw [wp_storePte]
      obtain ⟨hset, hn2⟩ := h1.set_page (e := 0) hv (by rw [hn1]; exact hp) (by decide) nofun rfl
      refine ⟨⟨hset.tree, hk1.trans hset.kept, fun t q hq => hset.mono t q ((hn1 t).trans hq),
        fun i hi hn => hset.low i hi ((hn1 _).trans hn), fun w hw => ?_⟩,
        fun t => (hn2 t).trans (hn1 t)⟩
      rw [hset.entries w hw]
      unfold unmapped
      by_cases hwv : w = v
      · rw [if_pos hwv, if_neg (by decide), if_pos (by omega)]
      · rw [if_neg hwv, if_neg (by omega)]
        exact he1 _ _ _
    · rw [if_neg hval] at hentry
      rw [if_pos (not_not.mp fun hc => hval (valid_iff.mpr hc))]
      exact hhole hentry

theorem wp_uvmunmap_loop (hv : v + n ≤ NPAGES)
    (h : TreeOk lay rest (freed do_free (entry s.mem root) v n ++ F) root s) :
    wp (uvmunmap_loop lay root ((v + n) * PGSIZE) do_free n (v * PGSIZE))
      (fun _ s' => Maps lay rest F root s (unmapped (entry s.mem root) v n) s' ∧
        ∀ t, node s'.mem root t = node s.mem root t) E s := by
  induction n generalizing v s with
  | zero =>
    rw [uvmunmap_loop, unmapped_zero]
    exact ⟨Maps.refl h, fun _ => rfl⟩
  | succ n ih =>
    have ha : (v * PGSIZE + PGSIZE) % 2 ^ 64 = (v + 1) * PGSIZE := by
      rw [NPAGES_eq] at hv
      rw [PGSIZE_eq]
      omega
    rw [uvmunmap_loop, if_pos (mul_lt_mul_of_pos_right (by omega) (by decide)), wp_bind, ha]
    have hsplit : freed do_free (entry s.mem root) v (n + 1) ++ F =
        freed do_free (entry s.mem root) v 1 ++
        (freed do_free (entry s.mem root) (v + 1) n ++ F) := by
      rw [freed, freed, freed, append_nil, append_assoc]
    rw [hsplit] at h
    refine (wp_unmap_page (by omega) h).post ?_
    rintro - s1 ⟨hone, hn1⟩
    have hrest : ∀ w, v + 1 ≤ w → w < v + 1 + n → entry s1.mem root w = entry s.mem root w := by
      intro w h1 h2
      rw [hone.entries w (by omega)]
      exact if_neg (by omega)
    have h₁ := hone.tree
    rw [← freed_congr hrest] at h₁
    rw [← add_assoc, add_right_comm v n 1]
    refine (ih (by omega) h₁).post ?_
    rintro - s2 ⟨hmaps, hn2⟩
    refine ⟨⟨hmaps.tree, fun pg hpg => (hone.kept pg ?_).trans (hmaps.kept pg hpg),
      fun t q hq => hmaps.mono t q (hone.mono t q hq),
      fun i hi hn => hmaps.low i hi (hone.low i hi hn), fun w hw => ?_⟩,
      fun t => (hn2 t).trans (hn1 t)⟩
    · exact hpg.imp_right fun hm => mem_append_right _ hm
    · rw [hmaps.entries w hw, ← unmapped_succ]
      unfold unmapped
      rw [hone.entries w hw]
      rfl

/-- `uvmunmap` removes the pages of its range; with `do_free` the physical pages
    are in flight before it and free after it. -/
theorem wp_uvmunmap (hv : v + n ≤ NPAGES)
    (h : TreeOk lay rest (freed do_free (entry s.mem root) v n ++ F) root s) :
    wp (uvmunmap lay root (v * PGSIZE) n do_free)
      (fun _ s' => Maps lay rest F root s (unmapped (entry s.mem root) v n) s' ∧
        ∀ t, node s'.mem root t = node s.mem root t) E s := by
  have hlt : (v * PGSIZE + n * PGSIZE) % 2 ^ 64 = (v + n) * PGSIZE := by
    rw [NPAGES_eq] at hv
    rw [PGSIZE_eq]
    omega
  rw [uvmunmap, if_neg (not_not.mpr (mul_mod_left v PGSIZE)), hlt]
  exact wp_uvmunmap_loop hv h

end Entries

/-! ## The tree as a finite map -/

/-- From a virtual page number to a physical page and its flags. -/
abbrev PageMap := Nat → Option (Nat × Nat)

/-- `n` consecutive pages from `v` on, to the physical pages from that of `pa` on. -/
def PageMap.insert (M : PageMap) (v n pa flags : Nat) : PageMap := fun w =>
  if v ≤ w ∧ w < v + n then some ((PGROUNDDOWN pa + (w - v) * PGSIZE) % 2 ^ 64, flags) else M w

/-- `n` pages from `v` on removed. -/
def PageMap.erase (M : PageMap) (v n : Nat) : PageMap := fun w =>
  if v ≤ w ∧ w < v + n then none else M w

/-- Physical page and flags of an entry. -/
def target (e : Nat) : Nat × Nat := (PTE2PA e, PTE_FLAGS e)

/-- The map that a tree stands for. -/
def mapping (m : Nat → UInt8) (root : Nat) : PageMap := fun v =>
  if v < NPAGES then (entry m root v).map target else none

section Mapping

variable {X : Type} {lay : Layout} {rest : X → Option Nat} {F : List Nat} {root : Nat} {s s' : Phys}

theorem mapping_of_lt (hv : v < NPAGES) : mapping m root v = (entry m root v).map target :=
  if_pos hv

theorem mapping_of_ge (hv : ¬ v < NPAGES) : mapping m root v = none := if_neg hv

theorem mapping_none (hv : v < NPAGES) (h : mapping m root v = none) : entry m root v = none := by
  rw [mapping_of_lt hv] at h
  exact map_eq_none_iff.mp h

theorem target_leafEntry (hperm : perm < 1024) (hpa : pa < 2 ^ 64) :
    target (leafEntry pa perm) = (PGROUNDDOWN pa, perm ||| PTE_V) := by
  unfold target
  rw [PTE2PA_leafEntry hperm hpa, PTE_FLAGS_leafEntry hperm]
  rfl

theorem Maps.mapping_insert (hperm : perm < 1024) (hv : v + n ≤ NPAGES)
    (h : Maps lay rest F root s (mapped (entry s.mem root) v n pa perm) s') :
    mapping s'.mem root = (mapping s.mem root).insert v n pa (perm ||| PTE_V) := by
  funext w
  unfold PageMap.insert
  by_cases hw : w < NPAGES
  · rw [mapping_of_lt hw, mapping_of_lt hw, h.entries w hw]
    unfold mapped
    by_cases hin : v ≤ w ∧ w < v + n
    · have hround : PGROUNDDOWN ((pa + (w - v) * PGSIZE) % 2 ^ 64) =
          (PGROUNDDOWN pa + (w - v) * PGSIZE) % 2 ^ 64 := by
        unfold PGROUNDDOWN
        rw [PGSIZE_eq]
        omega
      rw [if_pos hin, if_pos hin, map_some,
        target_leafEntry hperm (mod_lt _ (by decide)), hround]
    · rw [if_neg hin, if_neg hin]
  · rw [mapping_of_ge hw, mapping_of_ge hw, if_neg (by omega)]

theorem Maps.mapping_erase (h : Maps lay rest F root s (unmapped (entry s.mem root) v n) s') :
    mapping s'.mem root = (mapping s.mem root).erase v n := by
  funext w
  unfold PageMap.erase
  by_cases hw : w < NPAGES
  · rw [mapping_of_lt hw, mapping_of_lt hw, h.entries w hw]
    unfold unmapped
    split
    · rfl
    · rfl
  · rw [mapping_of_ge hw, mapping_of_ge hw, ite_self]

/-- What a walk that does not allocate finds is the map. -/
theorem mapping_walk (hva : va < MAXVA) {r : Option PteRef}
    (hr : r = (node s.mem root (.leaf (ix 2 va) (ix 1 va))).map fun pg => ⟨pg, PX 0 va⟩) :
    mapping s.mem root (va / PGSIZE) = r.bind fun r =>
      if pte s.mem r.pg r.i &&& PTE_V = 0 then none else some (target (pte s.mem r.pg r.i)) := by
  rw [mapping_of_lt (div_lt hva), ← lookup_eq hva, hr]
  unfold lookup entryAt
  cases node s.mem root (.leaf (ix 2 va) (ix 1 va)) with
  | none => rfl
  | some pg =>
    rw [map_some, bind_some, bind_some]
    show (validEntry s.mem pg (ix 0 va)).map target =
      if pte s.mem pg (ix 0 va) &&& PTE_V = 0 then none else some (target (pte s.mem pg (ix 0 va)))
    unfold validEntry
    by_cases hv : pte s.mem pg (ix 0 va) &&& PTE_V = 0
    · rw [if_pos hv, if_neg fun hc => valid_iff.mp hc hv]
      rfl
    · rw [if_neg hv, if_pos (valid_iff.mpr hv)]
      rfl

/-- **Page tables refine finite maps.**  On a well-formed tree, whose pages are
    distinct from each other, from those of `rest`, from those in flight and
    from the free ones:

    * `mappages` on a range that is not mapped returns 0 with exactly the pages
      of the range added, or -1 with a first part of them added;
    * `uvmunmap` removes exactly the pages of its range; with `do_free` the
      physical pages it frees are in flight before;
    * `walk` without `alloc` reads the map and changes nothing.

    The tree stays well-formed, and every page of `rest` or in flight keeps its
    contents. -/
theorem page_table_refines_map (hlay : lay.Ok) (h : TreeOk lay rest F root s) :
    (∀ va size pa perm, 0 < size → va + size ≤ MAXVA → pa < 2 ^ 64 → perm < 1024 → rwx perm ≠ 0 →
      (∀ v, va / PGSIZE ≤ v → v ≤ (va + size - 1) / PGSIZE → mapping s.mem root v = none) →
      ∃ r s', mappages root va size pa perm s = .ok r s' ∧ TreeOk lay rest F root s' ∧
        Kept rest F s s' ∧ ∃ c,
          mapping s'.mem root = (mapping s.mem root).insert (va / PGSIZE) c pa (perm ||| PTE_V) ∧
          (r = 0 ∧ c = (va + size - 1) / PGSIZE - va / PGSIZE + 1 ∨
            r = -1 ∧ c ≤ (va + size - 1) / PGSIZE - va / PGSIZE ∧ s'.freelist = [])) ∧
    (∀ v npages do_free F', v + npages ≤ NPAGES →
      F = freed do_free (entry s.mem root) v npages ++ F' →
      ∃ s', uvmunmap lay root (v * PGSIZE) npages do_free s = .ok () s' ∧
        TreeOk lay rest F' root s' ∧ Kept rest F' s s' ∧
        mapping s'.mem root = (mapping s.mem root).erase v npages) ∧
    (∀ va, va < MAXVA → ∃ r, walk root va false s = .ok r s ∧
      mapping s.mem root (va / PGSIZE) = r.bind fun r =>
        if pte s.mem r.pg r.i &&& PTE_V = 0 then none else some (target (pte s.mem r.pg r.i))) := by
  refine ⟨?_, ?_, ?_⟩
  · intro va size pa perm hsize hva hpa hperm hrwx hnone
    have hlast : (va + size - 1) / PGSIZE < NPAGES := div_lt (by omega)
    have hle : va / PGSIZE ≤ (va + size - 1) / PGSIZE := Nat.div_le_div_right (by omega)
    obtain ⟨r, s', hrun, c, hm⟩ := (wp_mappages hlay hperm hrwx h hsize hva hpa fun v h1 h2 =>
      .inl (mapping_none (by omega) (hnone v h1 h2))).returns
    refine ⟨r, s', hrun, hm.maps.tree, hm.maps.kept, c, hm.maps.mapping_insert hperm ?_, ?_⟩
    · rcases hm.result with ⟨-, hc, -⟩ | ⟨-, hc, -⟩ <;> omega
    · exact hm.result.imp (fun h => ⟨h.1, h.2.1⟩) fun h => ⟨h.1, h.2.1, h.2.2.1⟩
  · rintro v npages do_free F' hv rfl
    obtain ⟨⟨⟩, s', hrun, hmaps, -⟩ := (wp_uvmunmap hv h).returns
    exact ⟨s', hrun, hmaps.tree, hmaps.kept, hmaps.mapping_erase⟩
  · intro va hva
    obtain ⟨r, s', hrun, hs', hr⟩ :=
      (show wp (walk root va false) _ _ s from wp_walk_read hva).returns
    rw [hs'] at hrun
    exact ⟨r, hrun, mapping_walk hva hr⟩

end Mapping

/-! A memory of four pages: the root of an empty tree, and three free ones. -/

def fourLayout : Layout := ⟨KERNBASE + PGSIZE, KERNBASE, PHYSTOP - 4 * PGSIZE⟩

def fourRoot : Nat := PHYSTOP - PGSIZE

def fourPages : Phys where
  mem := fun _ => 0
  freelist := [PHYSTOP - 4 * PGSIZE, PHYSTOP - 3 * PGSIZE, PHYSTOP - 2 * PGSIZE]
  refcount := fun n => if n = fourRoot / PGSIZE then 1 else 0

theorem fourLayout_ok : fourLayout.Ok :=
  ⟨by decide, by decide, by decide, by decide, by decide, by decide⟩

theorem fourPages_used (pg : Nat) : used fourLayout fourPages pg ↔ pg = fourRoot := by
  show (pg % PGSIZE = 0 ∧ PHYSTOP - 4 * PGSIZE ≤ pg ∧ pg < PHYSTOP) ∧
    pg ∉ [PHYSTOP - 4 * PGSIZE, PHYSTOP - 3 * PGSIZE, PHYSTOP - 2 * PGSIZE] ↔ pg = PHYSTOP - PGSIZE
  have hstop : PHYSTOP = 2281701376 := rfl
  rw [hstop, PGSIZE_eq, mem_cons, mem_cons, mem_singleton]
  omega

theorem fourPages_pte (pg : Nat) (i : Fin 512) : pte fourPages.mem pg i = 0 := by
  simp only [pte, fourPages, Bytes.load]
  rfl

theorem fourPages_node (t : Node) :
    node fourPages.mem fourRoot t = if t = .root then some fourRoot else none := by
  cases t with
  | root => exact (if_pos rfl).symm
  | mid i => exact child_of_zero (fourPages_pte _ i)
  | leaf i j =>
    rw [node_leaf]
    show (child _ _ i).bind _ = _
    rw [child_of_zero (fourPages_pte _ i)]
    rfl

theorem fourPages_tree : TreeOk fourLayout (fun _ : Empty => none) [] fourRoot fourPages := by
  refine ⟨⟨by decide, ?_, ?_, ?_⟩, ⟨?_, nofun, nodup_nil, ?_⟩, ?_, ?_, ?_⟩
  · intro pg hpg
    simp only [fourPages, mem_cons, not_mem_nil, or_false] at hpg
    rcases hpg with rfl | rfl | rfl <;> exact ⟨by decide, by decide, by decide⟩
  · intro pg hpg
    simp only [fourPages, mem_cons, not_mem_nil, or_false] at hpg
    rcases hpg with rfl | rfl | rfl <;> rfl
  · intro pg hpg
    rw [(fourPages_used pg).mp hpg]
    rfl
  · rintro (t | x) (u | y) pg ht hu
    · simp only [Sum.elim_inl, fourPages_node] at ht hu
      split at ht
      · split at hu
        · next h1 h2 => rw [h1, h2]
        · cases hu
      · cases ht
    · exact y.elim
    · exact x.elim
    · exact x.elim
  · intro pg
    rw [fourPages_used]
    constructor
    · intro h
      exact .inr ⟨.inl .root, by rw [Sum.elim_inl, fourPages_node, if_pos rfl, h]⟩
    · rintro (hm | ⟨t | x, ht⟩)
      · cases hm
      · rw [Sum.elim_inl, fourPages_node] at ht
        split at ht
        · exact (some.inj ht).symm
        · cases ht
      · exact x.elim
  · intro i j p hp hv
    rw [fourPages_pte] at hv
    cases hv
  · intro i hv
    rw [fourPages_pte] at hv
    cases hv
  · intro i j k e he
    unfold entryAt at he
    rw [fourPages_node] at he
    cases he

theorem page_table_refines_map_four :
    TreeOk fourLayout (fun _ : Empty => none) [] fourRoot fourPages ∧
    (∃ r s', mappages fourRoot (PGSIZE + 100) PGSIZE KERNBASE (PTE_R ||| PTE_W) fourPages =
        .ok r s' ∧
      ∃ c, mapping s'.mem fourRoot = (mapping fourPages.mem fourRoot).insert 1 c KERNBASE 7 ∧
        (r = 0 ∧ c = 2 ∨ r = -1 ∧ c ≤ 1 ∧ s'.freelist = [])) ∧
    (∃ s', uvmunmap fourLayout fourRoot (3 * PGSIZE) 5 true fourPages = .ok () s' ∧
      mapping s'.mem fourRoot = (mapping fourPages.mem fourRoot).erase 3 5) ∧
    ∃ r, walk fourRoot 8192 false fourPages = .ok r fourPages := by
  have hnone : ∀ v, entry fourPages.mem fourRoot v = none := by
    intro v
    unfold entry lookup entryAt
    rw [fourPages_node]
    rfl
  obtain ⟨h1, h2, h3⟩ := page_table_refines_map fourLayout_ok fourPages_tree
  obtain ⟨r, s', hrun, -, -, hmap⟩ :=
    h1 (PGSIZE + 100) PGSIZE KERNBASE (PTE_R ||| PTE_W) (by decide) (by decide) (by decide)
        (by decide) (by decide) fun v _ hv => by
      rw [mapping_of_lt (lt_of_le_of_lt hv (by decide)), hnone]
      rfl
  obtain ⟨s'', hrun', -, -, hmap'⟩ := h2 3 5 true [] (by decide) (by simp [freed, hnone])
  obtain ⟨r', hrun'', -⟩ := h3 8192 (by decide)
  exact ⟨fourPages_tree, ⟨r, s', hrun, hmap⟩, ⟨s'', hrun', hmap'⟩, r', hrun''⟩

end NoviceKernel.VM
