import NoviceKernel.VmForest

/-! # Page tables that come and go (`uvmcreate`, `freewalk`, `uvmfree` of `vm.c`)

    `uvmcreate` adds an empty tree to the forest.  `freewalk` takes one away again
    that has no entries left: its pages go back to the free list one after the
    other, children first.

    While `freewalk` runs the tree is not a tree: freed pages still hang in it.
    So all its pages are taken off first, in thought, and are in flight
    (`pagesOf`); freeing one changes no other. -/

namespace NoviceKernel.VM

open Hoare Ledger Function List

/-! ## The pages of a tree -/

/-- An entry that points to a page-table page. -/
def isTable (e : Nat) : Bool := valid e && rwx e == 0

/-- The pages of a tree with the given number of levels, as `freewalk` finds
    them. -/
def pagesOf (m : Nat → UInt8) : Nat → Nat → List Nat
  | 0, _ => []
  | n + 1, pg => pg :: (List.range 512).flatMap fun i =>
      if isTable (pte m pg i) then pagesOf m n (PTE2PA (pte m pg i)) else []

/-- No entry of the tree is a leaf. -/
def NoLeaf (m : Nat → UInt8) : Nat → Nat → Prop
  | 0, _ => False
  | n + 1, pg => ∀ i, i < 512 → valid (pte m pg i) = true →
      rwx (pte m pg i) = 0 ∧ NoLeaf m n (PTE2PA (pte m pg i))

/-- The pages below entry `i`. -/
def childPages (m : Nat → UInt8) (n pg i : Nat) : List Nat :=
  if isTable (pte m pg i) then pagesOf m n (PTE2PA (pte m pg i)) else []

section Pages

variable {m m' : Nat → UInt8} {n pg i : Nat}

theorem pagesOf_succ : pagesOf m (n + 1) pg = pg :: (range 512).flatMap (childPages m n pg) := rfl

/-- A tree depends on its own pages. -/
theorem pagesOf_congr (h : ∀ x ∈ pagesOf m n pg, SamePage m m' x) :
    pagesOf m' n pg = pagesOf m n pg := by
  induction n generalizing pg with
  | zero => rfl
  | succ n ih =>
    rw [pagesOf_succ] at h ⊢
    rw [pagesOf_succ]
    refine congrArg (cons pg) (flatMap_congr fun i hi => ?_)
    have hpte : pte m' pg i = pte m pg i := (h pg mem_cons_self).pte (mem_range.mp hi)
    unfold childPages
    rw [hpte]
    by_cases ht : isTable (pte m pg i) = true
    · rw [if_pos ht, if_pos ht]
      refine ih fun x hx => h x (mem_cons_of_mem _ (mem_flatMap.mpr ⟨i, hi, ?_⟩))
      unfold childPages
      rwa [if_pos ht]
    · rw [if_neg ht, if_neg ht]

theorem NoLeaf.congr (hm : NoLeaf m n pg) (h : ∀ x ∈ pagesOf m n pg, SamePage m m' x) :
    NoLeaf m' n pg := by
  induction n generalizing pg with
  | zero => exact hm
  | succ n ih =>
    rw [pagesOf_succ] at h
    intro i hi hv
    rw [(h pg mem_cons_self).pte hi] at hv ⊢
    obtain ⟨hr, hc⟩ := hm i hi hv
    refine ⟨hr, ih hc fun x hx => h x (mem_cons_of_mem _ (mem_flatMap.mpr
      ⟨i, mem_range.mpr hi, ?_⟩))⟩
    unfold childPages
    rw [if_pos (by simp [isTable, hv, hr])]
    exact hx

end Pages

/-! ## `freewalk` -/

section Freewalk

variable {S : Type} {lay : Layout} {own : S → Option Nat} {F : List Nat} {s s' : Phys} {n pg : Nat}
  {E : Stop → Phys → Prop}

/-- The pages `A` have gone back to the free list, all others are as before. -/
structure Freed (lay : Layout) (own : S → Option Nat) (F A : List Nat) (s s' : Phys) : Prop where
  heap : Heap lay s'
  owns : Owns own F (used lay s')
  same : ∀ x, x % PGSIZE = 0 → x ∉ A → SamePage s.mem s'.mem x

/-- A page in flight is freed. -/
theorem wp_kfree_flight (hheap : Heap lay s) (howns : Owns own (pg :: F) (used lay s)) :
    wp (kfree lay pg) (fun _ s' => Freed lay own F [pg] s s') E s := by
  have hpg := howns.used_of_mem (r := pg) mem_cons_self
  refine (wp_kfree hheap hpg).post ?_
  rintro - _ rfl
  obtain ⟨hheap', hused⟩ := hheap.give hpg
  exact ⟨hheap', howns.free hused, fun x hx hne =>
    samePage_fill hpg.1.1 hx fun he => hne (mem_singleton.mpr he)⟩

/-- The loop of `freewalk` over the entries `is` of page `pg`, if the recursive
    call frees what is below an entry. -/
theorem wp_freewalk_loop {is : List Nat} (his : is.Nodup) (hlt : ∀ i ∈ is, i < 512)
    (hchild : ∀ {s c G}, Heap lay s → Owns own (pagesOf s.mem n c ++ G) (used lay s) →
      NoLeaf s.mem n c →
      wp (freewalk lay n c) (fun _ s' => Freed lay own G (pagesOf s.mem n c) s s') E s)
    (hheap : Heap lay s)
    (howns : Owns own (is.flatMap (childPages s.mem n pg) ++ pg :: F) (used lay s))
    (hno : ∀ i ∈ is, valid (pte s.mem pg i) = true →
      rwx (pte s.mem pg i) = 0 ∧ NoLeaf s.mem n (PTE2PA (pte s.mem pg i))) :
    wp (freewalk_loop (freewalk lay n) pg is)
      (fun _ s' => Freed lay own (pg :: F) (pg :: is.flatMap (childPages s.mem n pg)) s s')
      E s := by
  induction is generalizing s with
  | nil => exact ⟨hheap, howns, fun x _ _ => .refl _ x⟩
  | cons i is ih =>
    obtain ⟨hi, his⟩ := nodup_cons.mp his
    have hilt := hlt i mem_cons_self
    have hlt' : ∀ j ∈ is, j < 512 := fun j hj => hlt j (mem_cons_of_mem _ hj)
    rw [flatMap_cons] at howns ⊢
    rw [freewalk_loop, wp_bind, wp_loadPte]
    dsimp only
    generalize he : pte s.mem pg i = e at *
    by_cases hval : valid e = true
    case neg =>
      -- an empty entry
      have hz : childPages s.mem n pg i = [] := by
        unfold childPages
        rw [he, if_neg (by simp [isTable, hval])]
      have hv : ¬ e &&& PTE_V ≠ 0 := fun hc => hval (valid_iff.mpr hc)
      rw [hz] at howns ⊢
      rw [if_neg fun hc => hv hc.1, if_neg hv]
      exact ih his hlt' hheap howns fun j hj => hno j (mem_cons_of_mem _ hj)
    obtain ⟨hr, hleaf⟩ := hno i mem_cons_self (by rw [he]; exact hval)
    rw [he] at hr hleaf
    have hz : childPages s.mem n pg i = pagesOf s.mem n (PTE2PA e) := by
      unfold childPages
      rw [he, if_pos (by simp [isTable, hval, hr])]
    rw [hz] at howns ⊢
    rw [append_assoc] at howns
    rw [if_pos ⟨valid_iff.mp hval, hr⟩]
    refine (hchild hheap howns hleaf).seq ?_
    rintro - s1 hfreed
    rw [wp_bind, wp_storePte]
    -- the pages of this child are none of the others
    have hdis : ∀ x ∈ is.flatMap (childPages s.mem n pg) ++ pg :: F,
      x ∉ pagesOf s.mem n (PTE2PA e) :=
      fun x hx hc => (disjoint_of_nodup_append howns.nodup) hc hx
    have hpg : used lay s pg := howns.used_of_mem (by simp)
    have hsame1 : ∀ x, x % PGSIZE = 0 → x ∉ pagesOf s.mem n (PTE2PA e) → SamePage s.mem s1.mem x :=
      hfreed.same
    generalize hs2 : ({ s1 with mem := Bytes.store s1.mem (pg + 8 * i) 8 0 } : Phys) = s2
    have hm2 : s2.mem = Bytes.store s1.mem (pg + 8 * i) 8 0 := by rw [← hs2]
    have hsame : ∀ x, x % PGSIZE = 0 → x ≠ pg → x ∉ pagesOf s.mem n (PTE2PA e) →
        SamePage s.mem s2.mem x := by
      intro x hx hne hnot
      rw [hm2]
      exact (hsame1 x hx hnot).trans (samePage_store hpg.1.1 hx hne hilt)
    have hpte : ∀ j ∈ is, pte s2.mem pg j = pte s.mem pg j := by
      intro j hj
      have hne : j ≠ i := by
        rintro rfl
        exact hi hj
      rw [hm2, pte_store hpg.1.1 hpg.1.1 hilt (hlt' j hj), if_neg fun hc => hne hc.2]
      exact (hsame1 pg hpg.1.1 (hdis pg (by simp))).pte (hlt' j hj)
    -- so the other children are as they were
    have hkids : ∀ j ∈ is, isTable (pte s.mem pg j) = true →
        ∀ x ∈ pagesOf s.mem n (PTE2PA (pte s.mem pg j)), SamePage s.mem s2.mem x := by
      intro j hj ht x hx
      have hmem : x ∈ is.flatMap (childPages s.mem n pg) := by
        refine mem_flatMap.mpr ⟨j, hj, ?_⟩
        unfold childPages
        rwa [if_pos ht]
      have hu : used lay s x := howns.used_of_mem (by simp [hmem])
      refine hsame x hu.1.1 ?_ (hdis x (by simp [hmem]))
      rintro rfl
      have hnd := (nodup_append.mp howns.nodup).2.1
      exact (disjoint_of_nodup_append hnd) hmem mem_cons_self
    have hbelow : ∀ j ∈ is, childPages s2.mem n pg j = childPages s.mem n pg j := by
      intro j hj
      unfold childPages
      rw [hpte j hj]
      by_cases ht : isTable (pte s.mem pg j) = true
      · rw [if_pos ht, if_pos ht, pagesOf_congr (hkids j hj ht)]
      · rw [if_neg ht, if_neg ht]
    have hflat : is.flatMap (childPages s2.mem n pg) = is.flatMap (childPages s.mem n pg) :=
      flatMap_congr hbelow
    have hheap2 : Heap lay s2 := by
      rw [← hs2]
      exact ⟨hfreed.heap.nodup, hfreed.heap.page, hfreed.heap.free, hfreed.heap.one⟩
    have howns2 : Owns own (is.flatMap (childPages s2.mem n pg) ++ pg :: F) (used lay s2) := by
      rw [hflat, ← hs2]
      exact hfreed.owns
    refine (ih his hlt' hheap2 howns2 fun j hj hv => ?_).post ?_
    · rw [hpte j hj] at hv ⊢
      obtain ⟨hr', hleaf'⟩ := hno j (mem_cons_of_mem _ hj) hv
      exact ⟨hr', hleaf'.congr (hkids j hj (by simp [isTable, hv, hr']))⟩
    · rintro - s' hrest
      rw [hflat] at hrest
      refine ⟨hrest.heap, hrest.owns, fun x hx hnot => ?_⟩
      simp only [mem_cons, mem_append, not_or] at hnot
      refine (hsame x hx hnot.1 hnot.2.1).trans (hrest.same x hx ?_)
      simp only [mem_cons, not_or]
      exact ⟨hnot.1, hnot.2.2⟩

/-- `freewalk` frees the pages of a tree without leaves. -/
theorem wp_freewalk (n pg : Nat) (hheap : Heap lay s)
    (howns : Owns own (pagesOf s.mem n pg ++ F) (used lay s)) (hno : NoLeaf s.mem n pg) :
    wp (freewalk lay n pg) (fun _ s' => Freed lay own F (pagesOf s.mem n pg) s s') E s := by
  induction n generalizing s pg F with
  | zero => exact hno.elim
  | succ n ih =>
    have hlt : ∀ i ∈ range 512, i < 512 := fun i hi => mem_range.mp hi
    have hnd : (range 512).Nodup := nodup_range
    have hno' : ∀ i ∈ range 512, valid (pte s.mem pg i) = true →
        rwx (pte s.mem pg i) = 0 ∧ NoLeaf s.mem n (PTE2PA (pte s.mem pg i)) :=
        fun i hi => hno i (hlt i hi)
    rw [pagesOf_succ] at howns ⊢
    rw [freewalk_succ, wp_bind]
    generalize range 512 = l at *
    have howns' : Owns own (l.flatMap (childPages s.mem n pg) ++ pg :: F) (used lay s) :=
      howns.perm perm_middle.symm
    refine (wp_freewalk_loop hnd hlt (fun h1 h2 h3 => ih _ h1 h2 h3) hheap howns' hno').post ?_
    rintro - s1 hloop
    refine (wp_kfree_flight hloop.heap hloop.owns).post ?_
    rintro - s' hlast
    refine ⟨hlast.heap, hlast.owns, fun x hx hnot => (hloop.same x hx hnot).trans
      (hlast.same x hx ?_)⟩
    rw [mem_singleton]
    rintro rfl
    exact hnot mem_cons_self

end Freewalk

variable {m : Nat → UInt8} {o' : Option Nat} {V : Nat → Prop}

/-! ## Trees of the forest -/

section Trees

variable {T Z : Type} [DecidableEq T] {lay : Layout} {sel : T → Nat → Bool} {R : Handles T Z}
  {F : List Nat} {s s' : Phys} {t u : T} {r pg : Nat} {E : Stop → Phys → Prop} {o : Option Nat}
  {w : Owner T Z}

/-- The root of `t` is now `o`. -/
def Handles.setRoot (R : Handles T Z) (t : T) (o : Option Nat) : Handles T Z :=
  { R with root := Function.update R.root t o }

@[simp] theorem setRoot_self : (R.setRoot t o).root t = o := update_self ..

theorem setRoot_of_ne (h : u ≠ t) : (R.setRoot t o).root u = R.root u := update_of_ne h ..

@[simp] theorem setRoot_single : (R.setRoot t o).single = R.single := rfl

theorem ent_setRoot_of_ne (h : u ≠ t) (v : Nat) : ent (R.setRoot t o) m u v = ent R m u v := by
  unfold ent
  rw [setRoot_of_ne h]

/-- What other trees hold does not depend on the root of `t`. -/
theorem own_setRoot (h : Outside t (fun _ => True) w) :
    own sel (R.setRoot t o) m w = own sel R m w := by
  cases w with
  | node u n =>
    rw [own, own, setRoot_of_ne h]
  | leaf u v =>
    rw [own, own, ent_setRoot_of_ne fun hu => h hu trivial]
  | single z => rfl

/-- A page in flight without entries is the root of a new, empty tree. -/
theorem Forest.plant (h : Forest lay sel R (pg :: F) s) (ht : R.root t = none)
    (hzero : ∀ i : Fin 512, pte s.mem pg i = 0) : Forest lay sel (R.setRoot t (some pg)) F s := by
  have hnode : ∀ n, own sel (R.setRoot t (some pg)) s.mem (.node t n) = if n = .root then some pg
    else none :=
    fun n => (own_node setRoot_self).trans (node_of_empty hzero n)
  have hnone : ∀ n, own sel R s.mem (.node t n) = none := by
    intro n
    rw [own, ht, Option.bind_none]
  refine ⟨h.heap, ?_, fun u r hr => ?_⟩
  · refine h.owns.attach (s := .node t .root) (hnone .root) ((hnode .root).trans (if_pos rfl)) ?_
    intro w hw
    cases w with
    | node u n =>
      by_cases hu : u = t
      · subst hu
        rw [hnode, if_neg fun hn => hw (by rw [hn]), hnone]
      · exact own_setRoot (by exact hu)
    | leaf u v =>
      by_cases hu : u = t
      · subst hu
        rw [own, own, ent_of_root setRoot_self, ent_of_none ht, entry_of_empty hzero]
      · exact own_setRoot (fun hc => absurd hc hu)
    | single z => rfl
  · by_cases hu : u = t
    · subst hu
      rw [setRoot_self] at hr
      cases hr
      have hinv : ∀ i : Fin 512, valid (pte s.mem pg i) = false := by
        intro i
        rw [hzero]
        rfl
      refine ⟨fun i j p hp => ?_, fun i hv => ?_, fun i j k e he => ?_⟩
      · rw [node_of_empty hzero, if_neg (by simp)] at hp
        cases hp
      · rw [hinv] at hv
        cases hv
      · unfold entryAt at he
        rw [node_of_empty hzero, if_neg (by simp)] at he
        cases he
    · rw [setRoot_of_ne hu] at hr
      exact h.shape u r hr

/-- A new tree, or nothing if memory is out. -/
theorem wp_uvmcreate (hlay : lay.Ok) (h : Forest lay sel R F s) (ht : R.root t = none) :
    wp uvmcreate (fun pg s' => pg = 0 ∧ s' = s ∧ s.freelist = [] ∨
      pg ≠ 0 ∧ s.freelist.length = s'.freelist.length + 1 ∧
      Forest lay sel (R.setRoot t (some pg)) F s' ∧ Keeps sel R F Everyone s s' ∧
      ∀ i : Fin 512, pte s'.mem pg i = 0) E s := by
  refine wp_kalloc_fresh hlay h (fun hnil => .inl ⟨rfl, rfl, hnil⟩) fun pg s1 hfresh => ?_
  rw [wp_bind, wp_memset]
  have hzero : ∀ i : Fin 512, pte (Bytes.fill s1.mem pg PGSIZE 0) pg i = 0 :=
    fun i => pte_zero i.isLt
  have hfill := hfresh.fill 0
  exact .inr ⟨hfresh.page.pos hlay, hfill.length, hfill.forest.plant ht hzero, hfill.keeps, hzero⟩

/-! ### Taking a tree away -/

/-- The places of a tree in the order of `freewalk`. -/
def allNodes : List Node :=
  .root :: (List.finRange 512).flatMap fun i => .mid i :: (List.finRange 512).map (.leaf i)

theorem mem_allNodes (n : Node) : n ∈ allNodes := by
  cases n with
  | root => exact mem_cons_self
  | mid i =>
    exact mem_cons_of_mem _ (mem_flatMap.mpr ⟨i, mem_finRange i, mem_cons_self⟩)
  | leaf i j =>
    exact mem_cons_of_mem _ (mem_flatMap.mpr ⟨i, mem_finRange i,
      mem_cons_of_mem _ (mem_map.mpr ⟨j, mem_finRange j, rfl⟩)⟩)

theorem nodup_allNodes : allNodes.Nodup := by
  have hrange : (finRange 512).Nodup := nodup_finRange 512
  unfold allNodes
  generalize finRange 512 = l at *
  refine nodup_cons.mpr ⟨fun hm => ?_, nodup_flatMap.mpr ⟨fun i _ => ?_, ?_⟩⟩
  · obtain ⟨i, -, hi⟩ := mem_flatMap.mp hm
    rcases mem_cons.mp hi with hc | hc
    · cases hc
    · obtain ⟨j, -, hj⟩ := mem_map.mp hc
      cases hj
  · refine nodup_cons.mpr ⟨fun hm => ?_, hrange.map fun j k hjk => (Node.leaf.inj hjk).2⟩
    obtain ⟨j, -, hj⟩ := mem_map.mp hm
    cases hj
  · refine hrange.imp fun hne x hx hy => hne ?_
    -- the first index of a place is the one of its group
    have hfst : ∀ i, x ∈ Node.mid i :: l.map (Node.leaf i) → x = .mid i ∨ ∃ j, x = .leaf i j := by
      intro i hi
      rcases mem_cons.mp hi with hc | hc
      · exact .inl hc
      · obtain ⟨j, -, hj⟩ := mem_map.mp hc
        exact .inr ⟨j, hj.symm⟩
    rcases hfst _ hx with rfl | ⟨j, rfl⟩ <;> rcases hfst _ hy with h | ⟨k, h⟩ <;> cases h <;> rfl

/-- The children of a page that has no leaves, as lists and as options. -/
theorem childPages_one {c i : Nat} (h : valid (pte m c i) = true → rwx (pte m c i) = 0) :
    childPages m 1 c i =
      (if valid (pte m c i) then some (PTE2PA (pte m c i)) else none).toList := by
  have hone : ∀ x, pagesOf m 1 x = [x] := by
    intro x
    have hnil : ∀ l : List Nat, l.flatMap (childPages m 0 x) = [] := by
      intro l
      refine flatMap_eq_nil_iff.mpr fun j _ => ?_
      unfold childPages
      split <;> rfl
    rw [pagesOf_succ, hnil]
  unfold childPages
  by_cases hv : valid (pte m c i) = true
  · rw [if_pos (by simp [isTable, hv, h hv]), if_pos hv, hone]
    rfl
  · rw [if_neg (by simp [isTable, hv]), if_neg hv]
    rfl

/-- A list over indices is one over numbers. -/
theorem flatMap_range {α : Type} (f : Nat → List α) :
    (range 512).flatMap f = (finRange 512).flatMap fun i : Fin 512 => f i.val := by
  rw [← map_coe_finRange_eq_range, flatMap_map]

/-- The pages of a well-formed tree. -/
theorem Shape.pagesOf (h : Shape m r) : VM.pagesOf m 3 r = allNodes.filterMap (node m r) := by
  have hroot : allNodes.filterMap (node m r) = r :: (finRange 512).flatMap fun i =>
      (Node.mid i :: (finRange 512).map (Node.leaf i)).filterMap (node m r) := by
    unfold allNodes
    have hr : node m r .root = some r := rfl
    rw [filterMap_cons_some hr, filterMap_flatMap]
  rw [hroot, pagesOf_succ, flatMap_range]
  refine congrArg (cons r) (flatMap_congr fun i _ => ?_)
  have hmap : ∀ l : List (Fin 512), (l.map (Node.leaf i)).filterMap (node m r) =
      l.filterMap fun j => node m r (.leaf i j) := fun l => filterMap_map
  rw [filterMap_cons, hmap]
  by_cases hv : valid (pte m r i) = true
  · have hmid : node m r (.mid i) = some (PTE2PA (pte m r i)) := if_pos hv
    have hleaf : ∀ j, node m r (.leaf i j) = child m (PTE2PA (pte m r i)) j := by
      intro j
      rw [node_leaf, hmid, Option.bind_some]
    unfold childPages
    rw [hmid, if_pos (by simp [isTable, hv, h.top i hv]), pagesOf_succ, flatMap_range]
    refine congrArg (cons _) ?_
    rw [filterMap_eq_flatMap_toList]
    refine flatMap_congr fun j _ => ?_
    rw [childPages_one (h.inner i j _ hmid), hleaf]
    rfl
  · have hmid : node m r (.mid i) = none := if_neg hv
    have hleaf : ∀ l : List (Fin 512), l.filterMap (fun j => node m r (.leaf i j)) = [] := by
      intro l
      refine filterMap_eq_nil_iff.mpr fun j _ => ?_
      rw [node_leaf, hmid, Option.bind_none]
    unfold childPages
    rw [hmid, if_neg (by simp [isTable, hv]), hleaf]

/-- A well-formed tree without entries has no leaves. -/
theorem Shape.noLeaf (h : Shape m r)
    (hlow : ∀ i : Fin 512, 256 ≤ (i : Nat) → node m r (.mid i) = none)
    (hnone : ∀ v, v < NPAGES → entry m r v = none) : NoLeaf m 3 r := by
  have hmid : ∀ i : Fin 512, valid (pte m r i) = true →
    node m r (.mid i) = some (PTE2PA (pte m r i)) :=
    fun i hv => if_pos hv
  intro i hi hv
  refine ⟨h.top ⟨i, hi⟩ hv, fun j hj hv' => ⟨h.inner ⟨i, hi⟩ ⟨j, hj⟩ _ (hmid ⟨i, hi⟩ hv) hv',
    fun k hk hv'' => absurd hv'' ?_⟩⟩
  have hilow : i < 256 := by
    by_contra hc
    have := hlow ⟨i, hi⟩ (Nat.not_lt.mp hc)
    rw [hmid ⟨i, hi⟩ hv] at this
    cases this
  -- the page that these three indices stand for
  have hno := hnone (i * 2 ^ 18 + j * 2 ^ 9 + k) (by rw [NPAGES_eq]; omega)
  have hix : ∀ level w, (h : w < 512) →
    (i * 2 ^ 18 + j * 2 ^ 9 + k) * PGSIZE / 2 ^ (12 + 9 * level) % 512 = w →
      ix level ((i * 2 ^ 18 + j * 2 ^ 9 + k) * PGSIZE) = ⟨w, h⟩ :=
    fun level w _ he => Fin.ext ((PX_eq level _).trans he)
  unfold entry lookup at hno
  rw [hix 2 i hi (by rw [PGSIZE_eq]; omega), hix 1 j hj (by rw [PGSIZE_eq]; omega),
    hix 0 k hk (by rw [PGSIZE_eq]; omega)] at hno
  unfold entryAt at hno
  have hleaf : node m r (.leaf ⟨i, hi⟩ ⟨j, hj⟩) = some (PTE2PA (pte m (PTE2PA (pte m r i)) j)) := by
    rw [node_leaf, hmid ⟨i, hi⟩ hv, Option.bind_some]
    exact if_pos hv'
  rw [hleaf, Option.bind_some] at hno
  intro hv''
  unfold validEntry at hno
  rw [if_pos hv''] at hno
  cases hno

/-- `freewalk` takes an empty tree out of the forest. -/
theorem Forest.wp_freewalk (h : Forest lay sel R F s) (ht : R.root t = some r)
    (hlow : Low sel R s.mem t) (hnone : ∀ v, v < NPAGES → ent R s.mem t v = none) :
    wp (freewalk lay 3 r) (fun _ s' =>
      Forest lay sel (R.setRoot t none) F s' ∧ Keeps sel R F (Outside t fun _ => True) s s')
      E s := by
  classical
  have hshape := h.shape t r ht
  have hent : ∀ v, v < NPAGES → entry s.mem r v = none :=
    fun v hv => (ent_of_root ht).symm.trans (hnone v hv)
  have hlow' : ∀ i : Fin 512, 256 ≤ (i : Nat) → node s.mem r (.mid i) = none := fun i hi =>
    (own_node ht).symm.trans (hlow i hi)
  -- all pages of the tree are taken off
  let slots : List (Owner T Z) := allNodes.map (.node t)
  have hslots : slots.filterMap (own sel R s.mem) = pagesOf s.mem 3 r := by
    rw [hshape.pagesOf, filterMap_map]
    exact filterMap_congr fun n _ => own_node ht
  have hroot : (R.setRoot t none).root t = none := setRoot_self
  have howns : Owns (own sel (R.setRoot t none) s.mem) (pagesOf s.mem 3 r ++ F) (used lay s) := by
    rw [← hslots]
    refine h.owns.detach_all (nodup_allNodes.map fun a b hab => (Owner.node.inj hab).2) ?_ ?_
    · intro w hw
      obtain ⟨n, -, rfl⟩ := mem_map.mp hw
      rw [own, hroot, Option.bind_none]
    · intro w hw
      cases w with
      | node u n =>
        have hu : u ≠ t := by
          rintro rfl
          exact hw (mem_map.mpr ⟨n, mem_allNodes n, rfl⟩)
        exact own_setRoot (by exact hu)
      | leaf u v =>
        by_cases hu : u = t
        · subst hu
          rw [own, own, ent_of_none hroot, Option.map_none, ite_self]
          split
          · next hv => rw [hnone v hv.1, Option.map_none]
          · rfl
        · exact own_setRoot (fun hc => absurd hc hu)
      | single z => rfl
  have hwalk : wp (freewalk lay 3 r)
      (fun _ s' => Freed lay (own sel (R.setRoot t none) s.mem) F (pagesOf s.mem 3 r) s s') E s :=
    VM.wp_freewalk 3 r h.heap howns (hshape.noLeaf hlow' hent)
  have hnd := howns.nodup
  have hapart : ∀ w x, own sel (R.setRoot t none) s.mem w = some x → x ∉ pagesOf s.mem 3 r ++ F :=
    fun w x => howns.apart
  generalize pagesOf s.mem 3 r = A at *
  refine hwalk.post ?_
  rintro - s' hfreed
  -- nothing outside the tree is touched
  have hsame : ∀ w x, Outside t (fun _ => True) w → own sel R s.mem w = some x →
      SamePage s.mem s'.mem x := by
    intro w x hw hx
    refine hfreed.same x (h.owns.used_of_own hx).1.1 fun hm => ?_
    exact hapart w x ((own_setRoot hw).trans hx) (mem_append_left F hm)
  have hother : ∀ u r' n x, (R.setRoot t none).root u = some r' → node s.mem r' n = some x →
      SamePage s.mem s'.mem x := by
    intro u r' n x hr hn
    have hu : u ≠ t := by
      rintro rfl
      rw [hroot] at hr
      cases hr
    rw [setRoot_of_ne hu] at hr
    exact hsame (.node u n) x hu ((own_node hr).trans hn)
  refine ⟨⟨hfreed.heap, hfreed.owns.congr (own_congr hother) fun _ => Iff.rfl, fun u r' hr => ?_⟩,
    ?_⟩
  · have hu : u ≠ t := by
      rintro rfl
      rw [hroot] at hr
      cases hr
    rw [setRoot_of_ne hu] at hr
    exact (h.shape u r' hr).congr fun n x hn => hsame (.node u n) x hu ((own_node hr).trans hn)
  · refine ⟨fun w hw => ?_, hsame, fun x hx => ?_⟩
    · calc own sel R s'.mem w = own sel (R.setRoot t none) s'.mem w := (own_setRoot hw).symm
        _ = own sel (R.setRoot t none) s.mem w := own_congr hother w
        _ = own sel R s.mem w := own_setRoot hw
    · refine hfreed.same x (h.owns.used_of_mem hx).1.1 fun hm => ?_
      exact disjoint_of_nodup_append hnd hm hx

/-! ### A tree while it is built -/

/-- Setting the root that is there already. -/
theorem setRoot_same (h : R.root t = o) : R.setRoot t o = R := by
  unfold Handles.setRoot
  rw [← h, update_eq_self]

@[simp] theorem setRoot_setRoot : (R.setRoot t o).setRoot t o' = R.setRoot t o' := by
  unfold Handles.setRoot
  rw [update_idem]

theorem setRoot_comm (h : u ≠ t) : (R.setRoot t o).setRoot u o' = (R.setRoot u o').setRoot t o := by
  unfold Handles.setRoot
  rw [update_comm h]

/-- What a tree that is not yet there does, it does to itself. -/
theorem Keeps.of_setRoot (ht : R.root t = none)
    (h : Keeps sel (R.setRoot t o) F (Outside t V) s s') : Keeps sel R F Everyone s s' := by
  -- an owner is outside `t`, or holds nothing
  have hout : ∀ w : Owner T Z, Outside t (fun _ => True) w ∨ ∀ m, VM.own sel R m w = none := by
    intro w
    cases w with
    | node u n =>
      by_cases hu : u = t
      · subst hu
        exact .inr fun m => by rw [VM.own, ht, Option.bind_none]
      · exact .inl hu
    | leaf u v =>
      by_cases hu : u = t
      · subst hu
        exact .inr fun m => by rw [VM.own, VM.ent_of_none ht, Option.map_none, ite_self]
      · exact .inl fun hc => absurd hc hu
    | single z => exact .inl trivial
  have hin : ∀ w : Owner T Z, Outside t (fun _ => True) w → Outside t V w := by
    intro w hw
    cases w with
    | node u n => exact hw
    | leaf u v => exact fun hu => absurd trivial (hw hu)
    | single z => trivial
  refine ⟨fun w _ => ?_, fun w x _ hx => ?_, h.flight⟩
  · rcases hout w with hw | hw
    · calc VM.own sel R s'.mem w = VM.own sel (R.setRoot t o) s'.mem w := (own_setRoot hw).symm
        _ = VM.own sel (R.setRoot t o) s.mem w := h.own w (hin w hw)
        _ = VM.own sel R s.mem w := own_setRoot hw
    · rw [hw, hw]
  · rcases hout w with hw | hw
    · exact h.page w x (hin w hw) ((own_setRoot hw).trans hx)
    · rw [hw] at hx
      cases hx

/-- A tree that is gone holds nothing. -/
theorem Keeps.uproot (h : Keeps sel R F (Outside t V) s s') :
    Keeps sel (R.setRoot t none) F Everyone s s' := by
  refine Keeps.of_setRoot (o := R.root t) (V := V) (t := t) setRoot_self ?_
  rwa [setRoot_setRoot, setRoot_same rfl]

/-- Tree `t`, which was not there, is rooted at `r` and has the map `M`; all that
    was there is as it was. -/
structure Planted (lay : Layout) (sel : T → Nat → Bool) (R : Handles T Z) (F : List Nat) (t : T)
  (r : Nat)
    (M : Nat → Option Nat) (s s' : Phys) : Prop where
  forest : Forest lay sel (R.setRoot t (some r)) F s'
  entries : ∀ v, v < NPAGES → ent (R.setRoot t (some r)) s'.mem t v = M v
  low : Low sel (R.setRoot t (some r)) s'.mem t
  keeps : Keeps sel R F Everyone s s'

section Planted

variable {M M' : Nat → Option Nat} {V : Nat → Prop} {s'' : Phys}

/-- An empty tree. -/
theorem Planted.of_empty (hf : Forest lay sel (R.setRoot t (some r)) F s')
    (hk : Keeps sel R F Everyone s s') (hzero : ∀ i : Fin 512, pte s'.mem r i = 0) :
    Planted lay sel R F t r (fun _ => none) s s' := by
  refine ⟨hf, fun v _ => ?_, fun i _ => ?_, hk⟩
  · rw [ent_of_root setRoot_self, entry_of_empty hzero]
  · rw [own_node setRoot_self, node_of_empty hzero, if_neg (by simp)]

section

variable {v n pa f : Nat} (h : Planted lay sel R F t r M s s')
include h

theorem Planted.edit (ht : R.root t = none)
    (he : Edit lay sel (R.setRoot t (some r)) F t V s' M' s'') : Planted lay sel R F t r M' s s'' :=
  ⟨he.forest, he.entries, he.low h.low, h.keeps.trans (he.keeps.of_setRoot ht)⟩

theorem Planted.congr (hM : ∀ v, v < NPAGES → M' v = M v) : Planted lay sel R F t r M' s s' :=
  ⟨h.forest, fun v hv => (h.entries v hv).trans (hM v hv).symm, h.low, h.keeps⟩

/-- `mappages` on it. -/
theorem Planted.map (ht : R.root t = none)
    (he : Edit lay sel (R.setRoot t (some r)) F t V s'
        (mapped (ent (R.setRoot t (some r)) s'.mem t) v n pa f) s'') :
    Planted lay sel R F t r (mapped M v n pa f) s s'' :=
  (h.edit ht he).congr fun w hw => by rw [mapped, mapped, h.entries w hw]

/-- `freewalk` of a tree without entries: all is as before it was there. -/
theorem Planted.wp_freewalk (ht : R.root t = none) (hnone : ∀ v, v < NPAGES → M v = none) :
    wp (freewalk lay 3 r) (fun _ s'' => Forest lay sel R F s'' ∧ Keeps sel R F Everyone s s'')
      E s' := by
  refine (h.forest.wp_freewalk setRoot_self h.low fun v hv => (h.entries v hv).trans
    (hnone v hv)).post ?_
  rintro - s'' ⟨hf, hk⟩
  rw [setRoot_setRoot, setRoot_same ht] at hf
  exact ⟨hf, h.keeps.trans (hk.of_setRoot ht)⟩

end

end Planted

omit [DecidableEq T] in
/-- The free list has the same pages if everybody has the same. -/
theorem Forest.freelist_perm (h : Forest lay sel R F s) (h' : Forest lay sel R F s')
    (hk : Keeps sel R F Everyone s s') : s'.freelist.Perm s.freelist := by
  have hused : ∀ x, used lay s' x ↔ used lay s x := by
    intro x
    rw [h.owns.iff, h'.owns.iff]
    exact or_congr Iff.rfl (exists_congr fun o => by rw [hk.own o trivial])
  have hmem : ∀ {u : Phys}, Heap lay u → ∀ x, x ∈ u.freelist ↔ isPage lay x ∧ ¬ used lay u x := by
    intro u hu x
    refine ⟨fun hx => ⟨hu.page x hx, fun hc => hc.2 hx⟩, fun hx => ?_⟩
    by_contra hc
    exact hx.2 ⟨hx.1, hc⟩
  refine (perm_ext_iff_of_nodup h'.heap.nodup h.heap.nodup).mpr fun x => ?_
  rw [hmem h'.heap, hmem h.heap, hused]

/-! ### A whole address space -/

theorem wp_freewalk_after {M : Nat → Option Nat} (he : Edit lay sel R F t V s M s')
    (ht : R.root t = some r) (hlow : Low sel R s.mem t) (hnone : ∀ v, v < NPAGES → M v = none) :
    wp (freewalk lay 3 r) (fun _ s'' => Forest lay sel (R.setRoot t none) F s'' ∧
      Keeps sel R F (Outside t fun _ => True) s s'') E s' := by
  have hwalk := he.forest.wp_freewalk (E := E) ht (he.low hlow) fun v hv =>
    (he.entries v hv).trans (hnone v hv)
  refine hwalk.post ?_
  rintro - s'' ⟨hf, hk⟩
  exact ⟨hf, (he.weaken fun _ _ => trivial).keeps.trans hk⟩

/-- `uvmfree` of a tree whose leaves are all below `sz`. -/
theorem wp_uvmfree (h : Forest lay sel R F s) (ht : R.root t = some r) (hlow : Low sel R s.mem t)
    {sz : Nat} (hsz : PGROUNDUP sz / PGSIZE ≤ NPAGES)
    (hsel : ∀ v, v < PGROUNDUP sz / PGSIZE → sel t v = true)
    (hnone : ∀ v, PGROUNDUP sz / PGSIZE ≤ v → v < NPAGES → ent R s.mem t v = none) :
    wp (uvmfree lay r sz) (fun _ s' =>
      Forest lay sel (R.setRoot t none) F s' ∧ Keeps sel R F (Outside t fun _ => True) s s')
      E s := by
  unfold uvmfree
  by_cases hpos : sz > 0
  · rw [if_pos hpos, wp_bind]
    have hunmap := wp_uvmunmap_owned (E := E) (v := 0) (n := PGROUNDUP sz / PGSIZE) h ht (by omega)
      fun w _ hw => hsel w (by omega)
    rw [Nat.zero_mul] at hunmap
    refine hunmap.post ?_
    rintro - s1 ⟨he, -⟩
    refine wp_freewalk_after he ht hlow fun v hv => ?_
    unfold unmapped
    by_cases hin : 0 ≤ v ∧ v < 0 + PGROUNDUP sz / PGSIZE
    · rw [if_pos hin]
    · rw [if_neg hin]
      exact hnone v (by omega) hv
  · obtain rfl : sz = 0 := by omega
    rw [if_neg hpos]
    exact wp_freewalk_after (V := fun _ => True) (.refl h) ht hlow fun v hv =>
      hnone v (Nat.zero_le _) hv

/-- `uvmfreepage` of a tree whose only leaves are the pages from `v` on. -/
theorem wp_uvmfreepage (h : Forest lay sel R F s) (ht : R.root t = some r)
    (hlow : Low sel R s.mem t) {v n : Nat} (hv : v + n ≤ NPAGES)
    (hsel : ∀ w, v ≤ w → w < v + n → sel t w = true)
    (hnone : ∀ w, w < NPAGES → ¬ (v ≤ w ∧ w < v + n) → ent R s.mem t w = none) :
    wp (uvmfreepage lay r (v * PGSIZE) n) (fun _ s' =>
      Forest lay sel (R.setRoot t none) F s' ∧ Keeps sel R F (Outside t fun _ => True) s s')
      E s := by
  unfold uvmfreepage
  by_cases hpos : n > 0
  · rw [if_pos hpos]
    refine (wp_uvmunmap_owned h ht hv hsel).seq ?_
    rintro - s1 ⟨he, -⟩
    refine wp_freewalk_after he ht hlow fun w hw => ?_
    unfold unmapped
    by_cases hin : v ≤ w ∧ w < v + n
    · rw [if_pos hin]
    · rw [if_neg hin]
      exact hnone w hw hin
  · rw [if_neg hpos]
    exact wp_freewalk_after (V := fun _ => True) (.refl h) ht hlow fun w hw => hnone w hw (by omega)

/-! ### Pages that are not in a tree -/

section Single

variable [DecidableEq Z] {z : Z}

/-- The page of `z` is now `o`. -/
def Handles.setSingle (R : Handles T Z) (z : Z) (o : Option Nat) : Handles T Z :=
  { R with single := Function.update R.single z o }

omit [DecidableEq T] in
@[simp] theorem setSingle_self : (R.setSingle z o).single z = o := update_self ..

omit [DecidableEq T] in
theorem setSingle_of_ne {y : Z} (h : y ≠ z) : (R.setSingle z o).single y = R.single y :=
  update_of_ne h ..

omit [DecidableEq T] in
theorem own_setSingle (h : w ≠ .single z) : own sel (R.setSingle z o) m w = own sel R m w := by
  cases w with
  | node u n => rfl
  | leaf u v => rfl
  | single y =>
    refine update_of_ne ?_ ..
    rintro rfl
    exact h rfl

omit [DecidableEq T] in
theorem setSingle_same (h : R.single z = o) : R.setSingle z o = R := by
  unfold Handles.setSingle
  rw [← h, update_eq_self]

omit [DecidableEq T] in
@[simp] theorem setSingle_setSingle : (R.setSingle z o).setSingle z o' = R.setSingle z o' := by
  unfold Handles.setSingle
  rw [update_idem]

omit [DecidableEq T] in
/-- A page that is let go holds nothing. -/
theorem Keeps.drop {K : Owner T Z → Prop} (h : Keeps sel R F K s s')
    (hK : ∀ w, w ≠ .single z → K w) : Keeps sel (R.setSingle z none) F Everyone s s' := by
  refine ⟨fun w _ => ?_, fun w x _ hx => ?_, h.flight⟩
  · by_cases hw : w = .single z
    · rw [hw]
      rfl
    · rw [own_setSingle hw, own_setSingle hw]
      exact h.own w (hK w hw)
  · by_cases hw : w = .single z
    · rw [hw, VM.own, setSingle_self] at hx
      cases hx
    · rw [own_setSingle hw] at hx
      exact h.page w x (hK w hw) hx

omit [DecidableEq T] in
/-- `z` holds a page that was in flight. -/
theorem Forest.hold (h : Forest lay sel R (pg :: F) s) (hz : R.single z = none) :
    Forest lay sel (R.setSingle z (some pg)) F s :=
  ⟨h.heap, h.owns.attach (s := .single z) hz (update_self ..) fun _ hw => own_setSingle hw, h.shape⟩

omit [DecidableEq T] in
/-- `z` lets go of its page. -/
theorem Forest.drop (h : Forest lay sel R F s) (hz : R.single z = some pg) :
    Forest lay sel (R.setSingle z none) (pg :: F) s :=
  ⟨h.heap, h.owns.detach (s := .single z) hz (update_self ..) fun _ hw => own_setSingle hw, h.shape⟩

end Single

end Trees

end NoviceKernel.VM
