import Mathlib.Data.List.Nodup
import NoviceKernel.VmMap

/-! # All the page tables together

    Memory holds many trees at once.  A page belongs to one of them as a
    page-table page, or is mapped by an entry that owns its page (`sel` says
    which entries do: those of user memory and of kernel stacks, not those of
    the direct map), or is held by something else (a trapframe, a pipe).

    `Forest` says that no page has two owners and that every tree is well
    formed.  Each function of `vm.c` works on one tree: it gives a new map for
    that tree (`Edit`), the maps of all others stay. -/

namespace NoviceKernel.VM

open Hoare Ledger List

/-- What can hold a page: a place in a tree, an entry of a tree, or something
    that is not a page table. -/
inductive Owner (T Z : Type) where
  | node (t : T) (n : Node)
  | leaf (t : T) (v : Nat)
  | single (z : Z)

variable {m m' : Nat → UInt8} {v : Nat} {α : Type} {g : VmM α} {Q : α → Phys → Prop}
  {V : Nat → Prop}

/-- Where the trees are rooted, and the other pages in use. -/
@[ext] structure Handles (T Z : Type) where
  root : T → Option Nat
  single : Z → Option Nat

section Forest

variable {T Z : Type} {lay : Layout} {sel : T → Nat → Bool} {R : Handles T Z} {F F' : List Nat}
  {s s' s'' : Phys} {t : T} {r pg : Nat} {M M' : Nat → Option Nat} {E : Stop → Phys → Prop}
  {X : Type} {n : Node}

/-- The entry of page number `v` in tree `t`. -/
def ent (R : Handles T Z) (m : Nat → UInt8) (t : T) (v : Nat) : Option Nat :=
  (R.root t).bind fun r => entry m r v

/-- The page that an owner holds. -/
def own (sel : T → Nat → Bool) (R : Handles T Z) (m : Nat → UInt8) : Owner T Z → Option Nat
  | .node t n => (R.root t).bind fun r => node m r n
  | .leaf t v => if v < NPAGES ∧ sel t v then (ent R m t v).map PTE2PA else none
  | .single z => R.single z

/-- Entries above the last level are of page-table pages, those of the last
    level are leaves. -/
structure Shape (m : Nat → UInt8) (root : Nat) : Prop where
  inner : ∀ (i j : Fin 512) p, node m root (.mid i) = some p → valid (pte m p j) = true →
    rwx (pte m p j) = 0
  top : ∀ i : Fin 512, valid (pte m root i) = true → rwx (pte m root i) = 0
  leaves : ∀ i j k e, entryAt m root i j k = some e → rwx e ≠ 0

/-- No page has two owners, the free list is the rest of memory, and every tree
    is well formed. -/
structure Forest (lay : Layout) (sel : T → Nat → Bool) (R : Handles T Z) (F : List Nat) (s : Phys) :
    Prop where
  heap : Heap lay s
  owns : Owns (own sel R s.mem) F (used lay s)
  shape : ∀ t r, R.root t = some r → Shape s.mem r

theorem ent_of_root (ht : R.root t = some r) : ent R m t v = entry m r v := by
  unfold ent
  rw [ht, Option.bind_some]

theorem ent_of_none (ht : R.root t = none) : ent R m t v = none := by
  unfold ent
  rw [ht, Option.bind_none]

theorem own_node (ht : R.root t = some r) : own sel R m (.node t n) = node m r n := by
  rw [own, ht, Option.bind_some]

theorem Shape.congr {root : Nat} (h : Shape m root)
    (hsame : ∀ n pg, node m root n = some pg → SamePage m m' pg) : Shape m' root := by
  have hnode := node_congr hsame
  refine ⟨?_, ?_, ?_⟩
  · intro i j p hp
    rw [hnode] at hp
    rw [(hsame _ p hp).pte j.isLt]
    exact h.inner i j p hp
  · intro i
    rw [(hsame .root root rfl).pte i.isLt]
    exact h.top i
  · intro i j k e
    rw [entryAt_congr hsame]
    exact h.leaves i j k e

theorem TreeOk.shape {rest : X → Option Nat} (h : TreeOk lay rest F r s) : Shape s.mem r :=
  ⟨h.inner, h.top, h.leaves⟩

/-- The maps of the trees do not depend on other pages. -/
theorem ent_congr (h : ∀ r n pg, R.root t = some r → node m r n = some pg → SamePage m m' pg)
    (v : Nat) : ent R m' t v = ent R m t v :=
  Option.bind_congr fun r hr => entryAt_congr fun n pg => h r n pg hr

theorem own_congr (h : ∀ t r n pg, R.root t = some r → node m r n = some pg → SamePage m m' pg)
    (o : Owner T Z) : own sel R m' o = own sel R m o := by
  cases o with
  | node t n => exact Option.bind_congr fun r hr => node_congr (fun n pg => h t r n pg hr) n
  | leaf t v =>
    rw [own, own, ent_congr (h t)]
  | single z => rfl

/-- The owners in `K` hold the pages they held, and these pages and those in
    flight have the contents they had. -/
structure Keeps (sel : T → Nat → Bool) (R : Handles T Z) (F : List Nat) (K : Owner T Z → Prop)
    (s s' : Phys) : Prop where
  own : ∀ o, K o → own sel R s'.mem o = own sel R s.mem o
  page : ∀ o pg, K o → VM.own sel R s.mem o = some pg → SamePage s.mem s'.mem pg
  flight : ∀ pg ∈ F, SamePage s.mem s'.mem pg

/-- No page-table page of `t` is above `MAXVA`. -/
def Low (sel : T → Nat → Bool) (R : Handles T Z) (m : Nat → UInt8) (t : T) : Prop :=
  ∀ i : Fin 512, 256 ≤ (i : Nat) → own sel R m (.node t (.mid i)) = none

/-- Every owner. -/
def Everyone (_ : Owner T Z) : Prop := True

/-- All but the page-table pages of `t` and its leaves in `V`. -/
def Outside (t : T) (V : Nat → Prop) : Owner T Z → Prop
  | .node u _ => u ≠ t
  | .leaf u v => u = t → ¬ V v
  | .single _ => True

section Keeps

variable {K K' : Owner T Z → Prop}

theorem Keeps.refl (s : Phys) : Keeps sel R F K s s :=
  ⟨fun _ _ => rfl, fun _ _ _ _ => .refl _ _, fun _ _ => .refl _ _⟩

theorem Keeps.trans (h : Keeps sel R F K s s') (h' : Keeps sel R F K s' s'') :
    Keeps sel R F K s s'' where
  own := fun o ho => (h'.own o ho).trans (h.own o ho)
  page := fun o pg ho hpg => (h.page o pg ho hpg).trans (h'.page o pg ho ((h.own o ho).trans hpg))
  flight := fun pg hpg => (h.flight pg hpg).trans (h'.flight pg hpg)

theorem Keeps.weaken (h : Keeps sel R F K s s') (hK : ∀ o, K' o → K o) (hF : ∀ pg ∈ F', pg ∈ F) :
    Keeps sel R F' K' s s' :=
  ⟨fun o ho => h.own o (hK o ho), fun o pg ho => h.page o pg (hK o ho),
    fun pg hpg => h.flight pg (hF pg hpg)⟩

theorem Keeps.of_everyone (h : Keeps sel R F Everyone s s') : Keeps sel R F K s s' :=
  h.weaken (fun _ _ => trivial) fun _ hm => hm

section

variable (h : Keeps sel R F K s s') (hK : ∀ n, K (.node t n))
include h hK

/-- The map of a tree whose page-table pages are kept. -/
theorem Keeps.ent (v : Nat) : ent R s'.mem t v = ent R s.mem t v :=
  ent_congr (fun _ n pg hr hn => h.page (.node t n) pg (hK n) ((own_node hr).trans hn)) v

theorem Keeps.low (hlow : Low sel R s.mem t) : Low sel R s'.mem t :=
  fun i hi => (h.own _ (hK _)).trans (hlow i hi)

theorem Keeps.node (ht : R.root t = some r) (n : Node) : node s'.mem r n = node s.mem r n := by
  have hown := h.own (.node t n) (hK n)
  rwa [own_node ht, own_node ht] at hown

end

end Keeps

/-! ### Memory that is all zero -/

/-- A tree whose root has no entries is its root. -/
theorem node_of_empty (hm : ∀ i : Fin 512, pte m r i = 0) (n : Node) :
    node m r n = if n = .root then some r else none := by
  cases n with
  | root => exact (if_pos rfl).symm
  | mid i => exact child_of_zero (hm i)
  | leaf i j =>
    rw [node_leaf]
    show (child m r i).bind _ = _
    rw [child_of_zero (hm i)]
    rfl

theorem entry_of_empty (hm : ∀ i : Fin 512, pte m r i = 0) (v : Nat) : entry m r v = none := by
  unfold entry lookup entryAt
  rw [node_of_empty hm, if_neg (by simp)]
  rfl

theorem pte_of_zero (hm : ∀ a, m a = 0) (i : Nat) : pte m r i = 0 := by
  simp [pte, Bytes.load, hm]

theorem ent_of_zero (hm : ∀ a, m a = 0) (v : Nat) : ent R m t v = none := by
  unfold ent
  cases R.root t with
  | none => rfl
  | some r => exact entry_of_empty (fun i => pte_of_zero hm i) v

/-- The slots of trees that have only a root. -/
def rootSlot : T ⊕ Z → Owner T Z
  | .inl t => .node t .root
  | .inr z => .single z

/-- Empty trees, and the rest of memory free. -/
theorem Forest.of_zero (hm : ∀ a, s.mem a = 0) (hheap : Heap lay s)
    (howns : Owns (Sum.elim R.root R.single) F (used lay s)) : Forest lay sel R F s := by
  have hpte : ∀ pg (i : Fin 512), valid (pte s.mem pg i) = false := by
    intro pg i
    rw [pte_of_zero hm]
    rfl
  have hroot : ∀ (r : Nat) n, node s.mem r n = if n = .root then some r else none := fun r =>
    node_of_empty fun i => pte_of_zero hm i
  refine ⟨hheap, ?_, fun t r _ => ⟨?_, ?_, ?_⟩⟩
  · refine howns.reindex (fun o => Owner.casesOn o (fun t _ => .inl t) (fun t _ => .inl t) .inr)
      rootSlot ?_ ?_
    · intro o pg ho
      cases o with
      | node t n =>
        rw [own] at ho
        cases hr : R.root t with
        | none => rw [hr] at ho; cases ho
        | some r =>
          rw [hr, Option.bind_some, hroot] at ho
          split at ho
          · next hn => exact ⟨hr.trans ho, by rw [hn]; rfl⟩
          · cases ho
      | leaf t v =>
        rw [own, ent_of_zero hm] at ho
        split at ho <;> cases ho
      | single z => exact ⟨ho, rfl⟩
    · rintro (t | z) pg ho
      · have hr : R.root t = some pg := ho
        show own sel R s.mem (.node t .root) = some pg
        rw [own_node hr]
        rfl
      · exact ho
  · intro i j p _ hv
    rw [hpte] at hv
    cases hv
  · intro i hv
    rw [hpte] at hv
    cases hv
  · intro i j k e he
    unfold entryAt at he
    rw [hroot, if_neg (by simp)] at he
    cases he

namespace Forest

theorem used_node (h : Forest lay sel R F s) (ht : R.root t = some r)
    (hn : node s.mem r n = some pg) : used lay s pg :=
  h.owns.used_of_own (s := .node t n) ((own_node ht).trans hn)

/-- A change of memory outside the page-table pages. -/
theorem change (h : Forest lay sel R F s)
    (hsame : ∀ t r n pg, R.root t = some r → node s.mem r n = some pg → SamePage s.mem s'.mem pg)
    (hheap : Heap lay s') (howns : Owns (own sel R s.mem) F' (used lay s')) :
    Forest lay sel R F' s' ∧ ∀ o, own sel R s'.mem o = own sel R s.mem o :=
  ⟨⟨hheap, howns.congr (own_congr hsame) fun _ => Iff.rfl, fun t r ht =>
    (h.shape t r ht).congr fun n pg => hsame t r n pg ht⟩, own_congr hsame⟩

/-- `kalloc`: the page is in flight. -/
theorem alloc (h : Forest lay sel R F s) (hpg : s.freelist.head? = some pg) :
    Forest lay sel R (pg :: F) (s.take pg) ∧ Keeps sel R F Everyone s (s.take pg) := by
  obtain ⟨hheap, hp, hnot, hused⟩ := h.heap.take hpg
  have hsame : ∀ x, used lay s x → SamePage s.mem (s.take pg).mem x := fun x hx =>
    samePage_fill hp.1 hx.1.1 fun e => hnot (e ▸ hx)
  obtain ⟨hf, hown⟩ := h.change (fun t r n x ht hn => hsame x (h.used_node ht hn)) hheap
    (h.owns.alloc hnot hused)
  exact ⟨hf, fun o _ => hown o, fun o x _ ho => hsame x (h.owns.used_of_own ho),
    fun x hx => hsame x (h.owns.used_of_mem hx)⟩

section

variable {m : Nat → UInt8} (h : Forest lay sel R (pg :: F) s)
include h

/-- A page in flight is not that of an owner. -/
theorem ne_of_flight : (∀ o x, own sel R s.mem o = some x → x ≠ pg) ∧ ∀ x ∈ F, x ≠ pg := by
  refine ⟨?_, ?_⟩
  · rintro o x ho rfl
    exact h.owns.apart ho mem_cons_self
  · rintro x hx rfl
    exact (nodup_cons.mp h.owns.nodup).1 hx

/-- Memory changes in a page in flight only. -/
theorem touch (hm : ∀ x, x % PGSIZE = 0 → x ≠ pg → SamePage s.mem s'.mem x) (hheap : Heap lay s')
    (howns : Owns (own sel R s.mem) F' (used lay s')) :
    Forest lay sel R F' s' ∧ Keeps sel R F Everyone s s' := by
  obtain ⟨hne, hneF⟩ := h.ne_of_flight
  have hown : ∀ o x, own sel R s.mem o = some x → SamePage s.mem s'.mem x := fun o x ho =>
    hm x (h.owns.used_of_own ho).1.1 (hne o x ho)
  obtain ⟨hf, ho⟩ := h.change (fun t r n x ht hn => hown (.node t n) x ((own_node ht).trans hn))
    hheap howns
  refine ⟨hf, fun o _ => ho o, fun o x _ => hown o x, fun x hx => ?_⟩
  exact hm x (h.owns.used_of_mem (mem_cons_of_mem _ hx)).1.1 (hneF x hx)

/-- `kfree` of a page in flight. -/
theorem give : Forest lay sel R F (s.give pg) ∧ Keeps sel R F Everyone s (s.give pg) := by
  have hpg := h.owns.used_of_mem (r := pg) mem_cons_self
  obtain ⟨hheap, hused⟩ := h.heap.give hpg
  exact h.touch (fun x hx hne => samePage_fill hpg.1.1 hx hne) hheap (h.owns.free hused)

/-- Writes to a page in flight. -/
theorem write (hm : ∀ x, x % PGSIZE = 0 → x ≠ pg → SamePage s.mem m x) :
    Forest lay sel R (pg :: F) { s with mem := m } ∧ Keeps sel R F Everyone s { s with mem := m } :=
  h.touch hm ⟨h.heap.nodup, h.heap.page, h.heap.free, h.heap.one⟩ h.owns

end

/-! ### One tree of the forest -/

section Tree

variable [DecidableEq T]

/-- What everything but the page-table pages of `t` holds. -/
def others (sel : T → Nat → Bool) (R : Handles T Z) (m : Nat → UInt8) (t : T) :
    Owner T Z → Option Nat
  | .node u n => if u = t then none else own sel R m (.node u n)
  | .leaf u v => own sel R m (.leaf u v)
  | .single z => R.single z

/-- The places of tree `t`, then all other owners. -/
def split (t : T) : Owner T Z → Node ⊕ Owner T Z
  | .node u n => if u = t then .inl n else .inr (.node u n)
  | .leaf u v => .inr (.leaf u v)
  | .single z => .inr (.single z)

theorem tree (h : Forest lay sel R F s) (ht : R.root t = some r) :
    TreeOk lay (others sel R s.mem t) F r s := by
  have hshape := h.shape t r ht
  refine ⟨h.heap, ?_, hshape.inner, hshape.top, hshape.leaves⟩
  refine h.owns.reindex (Sum.elim (.node t) id) (split t) ?_ ?_
  · rintro (n | o) pg hpg
    · exact ⟨(own_node ht).trans hpg, if_pos rfl⟩
    · cases o with
      | node u n =>
        by_cases hu : u = t
        · rw [Sum.elim_inr, others, if_pos hu] at hpg
          cases hpg
        · rw [Sum.elim_inr, others, if_neg hu] at hpg
          exact ⟨hpg, if_neg hu⟩
      | leaf u v => exact ⟨hpg, rfl⟩
      | single z => exact ⟨hpg, rfl⟩
  · intro o pg hpg
    cases o with
    | node u n =>
      by_cases hu : u = t
      · subst hu
        rw [split, if_pos rfl, Sum.elim_inl, ← own_node ht]
        exact hpg
      · rw [split, if_neg hu, Sum.elim_inr, others, if_neg hu]
        exact hpg
    | leaf u v => exact hpg
    | single z => exact hpg

/-- What `t` leaves alone when it changes, apart from its own leaves. -/
structure Apart (sel : T → Nat → Bool) (R : Handles T Z) (t : T) (s s' : Phys) : Prop where
  nodes : ∀ u n, u ≠ t → own sel R s'.mem (.node u n) = own sel R s.mem (.node u n)
  maps : ∀ u v, u ≠ t → ent R s'.mem u v = ent R s.mem u v

/-- From a tree and what the others hold back to the forest: the leaves of the
    tree hold what `rest` says. -/
theorem of_tree (h : Forest lay sel R F s) (ht : R.root t = some r) {rest : Owner T Z → Option Nat}
    (htree : TreeOk lay rest F' r s') (hkept : Kept rest F' s s')
    (hnode : ∀ u n, rest (.node u n) = others sel R s.mem t (.node u n))
    (hsingle : ∀ z, rest (.single z) = R.single z)
    (hleaf : ∀ u v, rest (.leaf u v) = if u = t then own sel R s'.mem (.leaf u v)
      else own sel R s.mem (.leaf u v)) :
    Forest lay sel R F' s' ∧ Apart sel R t s s' := by
  have hsame : ∀ u, u ≠ t → ∀ r n pg, R.root u = some r → node s.mem r n = some pg →
      SamePage s.mem s'.mem pg := by
    intro u hu r' n pg hr hn
    refine hkept pg (.inl ⟨.node u n, ?_⟩)
    rw [hnode, others, if_neg hu, own_node hr, hn]
  have hnodes : ∀ u n, u ≠ t → own sel R s'.mem (.node u n) = own sel R s.mem (.node u n) :=
      fun u n hu =>
    Option.bind_congr fun r' hr => node_congr (fun n pg => hsame u hu r' n pg hr) n
  have hent : ∀ u v, u ≠ t → ent R s'.mem u v = ent R s.mem u v :=
    fun u v hu => ent_congr (hsame u hu) v
  refine ⟨⟨htree.heap, ?_, ?_⟩, hnodes, hent⟩
  · refine htree.owns.reindex (split t) (Sum.elim (.node t) id) ?_ ?_
    · intro o pg hpg
      cases o with
      | node u n =>
        by_cases hu : u = t
        · subst hu
          rw [split, if_pos rfl, Sum.elim_inl, ← own_node ht]
          exact ⟨hpg, rfl⟩
        · rw [split, if_neg hu, Sum.elim_inr, hnode, others, if_neg hu, ← hnodes u n hu]
          exact ⟨hpg, rfl⟩
      | leaf u v =>
        refine ⟨?_, rfl⟩
        rw [split, Sum.elim_inr, hleaf]
        split
        · exact hpg
        · next hu =>
          rw [own, ← hent u v hu]
          exact hpg
      | single z => exact ⟨(hsingle z).trans hpg, rfl⟩
    · rintro (n | o) pg hpg
      · exact (own_node ht).trans hpg
      · cases o with
        | node u n =>
          rw [Sum.elim_inr, hnode, others] at hpg
          by_cases hu : u = t
          · rw [if_pos hu] at hpg
            cases hpg
          · rw [if_neg hu, ← hnodes u n hu] at hpg
            exact hpg
        | leaf u v =>
          rw [Sum.elim_inr, hleaf] at hpg
          by_cases hu : u = t
          · rwa [if_pos hu] at hpg
          · rw [if_neg hu, own, ← hent u v hu] at hpg
            exact hpg
        | single z => exact (hsingle z).symm.trans hpg
  · intro u r' hr
    by_cases hu : u = t
    · subst hu
      obtain rfl : r' = r := Option.some.inj (hr.symm.trans ht)
      exact htree.shape
    · exact (h.shape u r' hr).congr fun n pg => hsame u hu r' n pg hr

end Tree

end Forest

/-! ## Fresh pages -/

/-- `pg` has been taken from the free list and got the contents `b`; nothing else
    has changed. -/
structure Fresh (lay : Layout) (sel : T → Nat → Bool) (R : Handles T Z) (F : List Nat) (pg : Nat)
    (b : Nat → UInt8) (s s' : Phys) : Prop where
  head : s.freelist.head? = some pg
  list : s'.freelist = s.freelist.tail
  forest : Forest lay sel R (pg :: F) s'
  keeps : Keeps sel R F Everyone s s'
  bytes : ∀ i, i < PGSIZE → s'.mem (pg + i) = b i

section Fresh

variable {b : Nat → UInt8}

/-- Junk after `kalloc`. -/
theorem Forest.fresh (h : Forest lay sel R F s) (hpg : s.freelist.head? = some pg) :
    Fresh lay sel R F pg (fun _ => 5) s (s.take pg) := by
  obtain ⟨hf, hk⟩ := h.alloc hpg
  exact ⟨hpg, rfl, hf, hk, fun i hi => Bytes.fill_in (by omega) (by omega)⟩

section

variable {m b' : Nat → UInt8} (h : Fresh lay sel R F pg b s s')
include h

/-- Only the new page is written. -/
theorem Fresh.write (hm : ∀ x, x % PGSIZE = 0 → x ≠ pg → SamePage s'.mem m x)
    (hb : ∀ i, i < PGSIZE → m (pg + i) = b' i) :
    Fresh lay sel R F pg b' s { s' with mem := m } := by
  obtain ⟨hf, hk⟩ := h.forest.write hm
  exact ⟨h.head, h.list, hf, h.keeps.trans hk, hb⟩

theorem Fresh.page : isPage lay pg :=
  (h.forest.owns.used_of_mem (r := pg) mem_cons_self).1

theorem Fresh.fill (c : UInt8) :
    Fresh lay sel R F pg (fun _ => c) s { s' with mem := Bytes.fill s'.mem pg PGSIZE c } :=
  h.write (fun _ hx hne => samePage_fill h.page.1 hx hne) fun i hi =>
    Bytes.fill_in (by omega) (by omega)

theorem Fresh.copy (src : Nat → UInt8) :
    Fresh lay sel R F pg src s { s' with mem := Bytes.copy s'.mem pg PGSIZE src } := by
  refine h.write (fun x hx hne a h1 h2 => ?_) fun i hi => ?_
  · have hpg := h.page.1
    rw [PGSIZE_eq] at *
    exact Bytes.copy_out (by omega)
  · rw [Bytes.copy_in (by omega) (by omega), Nat.add_sub_cancel_left]

theorem Fresh.length : s.freelist.length = s'.freelist.length + 1 := by
  rw [h.list]
  cases hl : s.freelist with
  | nil =>
    have := h.head
    rw [hl] at this
    cases this
  | cons r rest => rfl

end

/-- `kalloc` and a test of its result. -/
theorem wp_kalloc_fresh {f : Nat → VmM α} (hlay : lay.Ok)
    (h : Forest lay sel R F s) (hnil : s.freelist = [] → wp g Q E s)
    (hsome : ∀ pg s', Fresh lay sel R F pg (fun _ => 5) s s' → wp (f pg) Q E s') :
    wp (do
      let pg ← kalloc
      if pg = 0 then g else f pg) Q E s := by
  refine (wp_kalloc h.heap).seq ?_
  rintro pg s1 (⟨rfl, rfl, hempty⟩ | ⟨hpg, rfl⟩)
  · exact hnil hempty
  · have hf := h.fresh hpg
    rw [if_neg (hf.page.pos hlay)]
    exact hsome pg _ hf

/-- A fresh page is freed again. -/
theorem Fresh.wp_kfree (h : Fresh lay sel R F pg b s s')
    (hQ : ∀ s'', Forest lay sel R F s'' → Keeps sel R F Everyone s s'' → wp g Q E s'') :
    wp (do kfree lay pg; g) Q E s' := by
  have hf := h.forest
  refine (VM.wp_kfree hf.heap (hf.owns.used_of_mem mem_cons_self)).seq ?_
  rintro - _ rfl
  obtain ⟨hf', hk⟩ := hf.give
  exact hQ _ hf' (h.keeps.trans hk)

end Fresh

/-! ## Edits of one tree -/

/-- The map of tree `t` is now `M`; it has the page-table pages it had, and the
    pages of its leaves outside `V`, those of everything else and those in flight
    are as before. -/
structure Edit (lay : Layout) (sel : T → Nat → Bool) (R : Handles T Z) (F : List Nat) (t : T)
    (V : Nat → Prop) (s : Phys) (M : Nat → Option Nat) (s' : Phys) : Prop where
  forest : Forest lay sel R F s'
  entries : ∀ v, v < NPAGES → ent R s'.mem t v = M v
  nodes : ∀ n pg, own sel R s.mem (.node t n) = some pg → own sel R s'.mem (.node t n) = some pg
  low : Low sel R s.mem t → Low sel R s'.mem t
  keeps : Keeps sel R F (Outside t V) s s'

section Edit

variable {V V' : Nat → Prop}

theorem Edit.refl (h : Forest lay sel R F s) : Edit lay sel R F t V s (ent R s.mem t) s :=
  ⟨h, fun _ _ => rfl, fun _ _ hn => hn, id, .refl s⟩

section

variable (h : Edit lay sel R F t V s M s')
include h

theorem Edit.trans (h' : Edit lay sel R F t V s' M' s'') : Edit lay sel R F t V s M' s'' :=
  ⟨h'.forest, h'.entries, fun n pg hn => h'.nodes n pg (h.nodes n pg hn), h'.low ∘ h.low,
    h.keeps.trans h'.keeps⟩

theorem Edit.congr (hM : ∀ v, v < NPAGES → M' v = M v) : Edit lay sel R F t V s M' s' :=
  ⟨h.forest, fun v hv => (h.entries v hv).trans (hM v hv).symm, h.nodes, h.low, h.keeps⟩

theorem Edit.weaken (hV : ∀ v, V v → V' v) : Edit lay sel R F t V' s M s' := by
  refine ⟨h.forest, h.entries, h.nodes, h.low, h.keeps.weaken (fun o ho => ?_) fun _ hm => hm⟩
  cases o with
  | node u n => exact ho
  | leaf u v => exact fun hu hv => ho hu (hV v hv)
  | single z => trivial

end

/-- A change outside all trees, then an edit. -/
theorem Edit.after (h : Keeps sel R F Everyone s s') (h' : Edit lay sel R F t V s' M s'') :
    Edit lay sel R F t V s M s'' :=
  ⟨h'.forest, h'.entries, fun n pg hn => h'.nodes n pg ((h.own _ trivial).trans hn),
    h'.low ∘ h.low fun _ => trivial, h.of_everyone.trans h'.keeps⟩

/-- An edit, then a change outside all trees. -/
theorem Edit.andThen (h : Edit lay sel R F' t V s M s') (hF : ∀ pg ∈ F, pg ∈ F')
    (hf : Forest lay sel R F s'') (hk : Keeps sel R F Everyone s' s'') :
    Edit lay sel R F t V s M s'' :=
  ⟨hf, fun v hv => (hk.ent (fun _ => trivial) v).trans (h.entries v hv),
    fun n pg hn => (hk.own _ trivial).trans (h.nodes n pg hn), (hk.low fun _ => trivial) ∘ h.low,
    (h.keeps.weaken (fun _ ho => ho) hF).trans hk.of_everyone⟩

/-- A change outside all trees. -/
theorem Edit.of_keeps (hf : Forest lay sel R F s') (h : Keeps sel R F Everyone s s') :
    Edit lay sel R F t V s (ent R s.mem t) s' :=
  ⟨hf, fun v _ => h.ent (fun _ => trivial) v, fun _ _ hn => (h.own _ trivial).trans hn,
    h.low fun _ => trivial, h.of_everyone⟩

end Edit

theorem TreeOk.reown {rest rest' : X → Option Nat} (h : TreeOk lay rest F r s)
    (howns : Owns (Sum.elim (node s.mem r) rest') F' (used lay s)) : TreeOk lay rest' F' r s :=
  ⟨h.heap, howns, h.inner, h.top, h.leaves⟩

theorem own_leaf_congr
    (h : v < NPAGES → sel t v = true → (ent R m' t v).map PTE2PA = (ent R m t v).map PTE2PA) :
    own sel R m' (.leaf t v) = own sel R m (.leaf t v) := by
  rw [own, own]
  by_cases hv : v < NPAGES ∧ sel t v = true
  · rw [if_pos hv, if_pos hv, h hv.1 hv.2]
  · rw [if_neg hv, if_neg hv]

variable [DecidableEq T]

/-- The pieces of an edit: the forest, what other trees hold, what the leaves of
    `t` outside `V` hold, and the contents of what is kept. -/
theorem Forest.Apart.edit (hf : Forest lay sel R F s') (ha : Forest.Apart sel R t s s')
    (ht : R.root t = some r) (hmono : ∀ n pg, node s.mem r n = some pg → node s'.mem r n = some pg)
    (hlow : StaysLow r s s') (hent : ∀ v, v < NPAGES → ent R s'.mem t v = M v)
    (hM : ∀ v, v < NPAGES → ¬ V v → sel t v = true →
      (M v).map PTE2PA = (ent R s.mem t v).map PTE2PA)
    (hpage : ∀ o pg, Outside t V o → own sel R s.mem o = some pg → SamePage s.mem s'.mem pg)
    (hflight : ∀ pg ∈ F, SamePage s.mem s'.mem pg) : Edit lay sel R F t V s M s' := by
  refine ⟨hf, hent, fun n pg => ?_, fun h i hi => ?_, fun o ho => ?_, hpage, hflight⟩
  · rw [own_node ht, own_node ht]
    exact hmono n pg
  · have := h i hi
    rw [own_node ht] at this ⊢
    exact hlow i hi this
  cases o with
  | node u n => exact ha.nodes u n ho
  | leaf u v =>
    by_cases hu : u = t
    · subst hu
      exact own_leaf_congr fun hv hs => by rw [hent v hv, hM v hv (ho rfl) hs]
    · exact own_leaf_congr fun _ _ => by rw [ha.maps u v hu]
  | single z => rfl

/-- What an owner outside `t` holds is with the others. -/
theorem Forest.others_of_outside {o : Owner T Z} (ho : Outside t V o) :
    Forest.others sel R m t o = own sel R m o := by
  cases o with
  | node u n => exact if_neg ho
  | leaf u v => rfl
  | single z => rfl

/-- No page changes hands: the entries that own their page keep it. -/
theorem Forest.edit (h : Forest lay sel R F s) (ht : R.root t = some r)
    (hm : Maps lay (Forest.others sel R s.mem t) F r s M s')
    (hM : ∀ v, v < NPAGES → sel t v = true → (M v).map PTE2PA = (ent R s.mem t v).map PTE2PA) :
    Edit lay sel R F t V s M s' := by
  have hent : ∀ v, v < NPAGES → ent R s'.mem t v = M v := fun v hv =>
    (ent_of_root ht).trans (hm.entries v hv)
  obtain ⟨hf, ha⟩ := h.of_tree ht hm.tree hm.kept (fun _ _ => rfl) (fun _ => rfl) fun u v => by
    split
    · next hu =>
      subst hu
      exact (own_leaf_congr fun hv hs => by rw [hent v hv, hM v hv hs]).symm
    · rfl
  refine ha.edit hf ht hm.mono hm.low hent (fun v hv _ hs => hM v hv hs) (fun o pg ho hpg => ?_)
      fun pg hpg =>
    hm.kept pg (.inr hpg)
  exact hm.kept pg (.inl ⟨o, (Forest.others_of_outside ho).trans hpg⟩)

/-- A page in flight is now mapped by an entry that owns it. -/
theorem Forest.edit_attach (h : Forest lay sel R (pg :: F) s) (ht : R.root t = some r)
    (hm : Maps lay (Forest.others sel R s.mem t) (pg :: F) r s M s') {e : Nat} (hv : v < NPAGES)
    (hsel : sel t v = true) (hnone : ent R s.mem t v = none) (he : M v = some e)
    (hpg : PTE2PA e = pg) (hM : ∀ w, w ≠ v → M w = ent R s.mem t w) :
    Edit lay sel R F t (· = v) s M s' := by
  have hent : ∀ v, v < NPAGES → ent R s'.mem t v = M v := fun v hv =>
    (ent_of_root ht).trans (hm.entries v hv)
  have hself : own sel R s'.mem (.leaf t v) = some pg := by
    rw [own, if_pos ⟨hv, hsel⟩, hent v hv, he, Option.map_some, hpg]
  have hempty : own sel R s.mem (.leaf t v) = none := by
    rw [own, if_pos ⟨hv, hsel⟩, hnone, Option.map_none]
  have hother : ∀ w, w ≠ v → own sel R s'.mem (.leaf t w) = own sel R s.mem (.leaf t w) :=
      fun w hw =>
    own_leaf_congr fun hlt _ => by rw [hent w hlt, hM w hw]
  -- what the others hold, with the new leaf
  let rest : Owner T Z → Option Nat := fun o => match o with
    | .leaf u w => if u = t then own sel R s'.mem (.leaf u w) else own sel R s.mem (.leaf u w)
    | o => Forest.others sel R s.mem t o
  have howns : Owns (Sum.elim (node s'.mem r) rest) F (used lay s') := by
    refine hm.tree.owns.attach (s := Sum.inr (.leaf t v)) hempty ?_ ?_
    · exact (if_pos rfl).trans hself
    · rintro (n | o) hne
      · rfl
      · cases o with
        | node u n => rfl
        | leaf u w =>
          by_cases hu : u = t
          · subst hu
            refine (if_pos rfl).trans (hother w ?_)
            rintro rfl
            exact hne rfl
          · exact if_neg hu
        | single z => rfl
  have hkept : Kept rest F s s' := by
    rintro x (⟨o, ho⟩ | hx)
    · cases o with
      | node u n => exact hm.kept x (.inl ⟨.node u n, ho⟩)
      | leaf u w =>
        by_cases hu : u = t
        · subst hu
          by_cases hw : w = v
          · subst hw
            have : some x = some pg := ho.symm.trans ((if_pos rfl).trans hself)
            exact hm.kept x (.inr (Option.some.inj this ▸ mem_cons_self))
          · exact hm.kept x
              (.inl ⟨.leaf u w, (hother w hw).symm.trans ((if_pos rfl).symm.trans ho)⟩)
        · exact hm.kept x (.inl ⟨.leaf u w, (if_neg hu).symm.trans ho⟩)
      | single z => exact hm.kept x (.inl ⟨.single z, ho⟩)
    · exact hm.kept x (.inr (mem_cons_of_mem _ hx))
  obtain ⟨hf, ha⟩ := h.of_tree ht (hm.tree.reown howns) hkept (fun _ _ => rfl) (fun _ => rfl)
    fun _ _ => rfl
  refine ha.edit hf ht hm.mono hm.low hent (fun w _ hw _ => by rw [hM w hw]) (fun o x ho hx => ?_)
      fun x hx =>
    hm.kept x (.inr (mem_cons_of_mem _ hx))
  exact hm.kept x (.inl ⟨o, (Forest.others_of_outside ho).trans hx⟩)

/-! ### `mappages` -/

/-- Pages that their entries do not own are mapped: the direct map, the
    trampoline. -/
theorem wp_mappages_shared (hlay : lay.Ok) (h : Forest lay sel R F s) (ht : R.root t = some r)
    {va size pa perm : Nat} (hperm : perm < 1024) (hrwx : rwx perm ≠ 0) (hsize : 0 < size)
    (hva : va + size ≤ MAXVA) (hpa : pa < 2 ^ 64)
    (hsel : ∀ w, va / PGSIZE ≤ w → w ≤ (va + size - 1) / PGSIZE → sel t w = false)
    (hnone : ∀ w, va / PGSIZE ≤ w → w ≤ (va + size - 1) / PGSIZE →
      ent R s.mem t w = none ∨ ∀ e t, E e t) :
    wp (mappages r va size pa perm) (fun res s' => ∃ c, Mapped lay (Forest.others sel R s.mem t) F r
        (va / PGSIZE) ((va + size - 1) / PGSIZE - va / PGSIZE) pa perm s res c s' ∧
      Edit lay sel R F t V s (mapped (ent R s.mem t) (va / PGSIZE) c pa perm) s') E s := by
  have hent : entry s.mem r = ent R s.mem t := funext fun v => (ent_of_root ht).symm
  refine (wp_mappages hlay hperm hrwx (h.tree ht) hsize hva hpa ?_).post ?_
  · rw [hent]
    exact hnone
  rintro res s' ⟨c, hm⟩
  have hle : va / PGSIZE ≤ (va + size - 1) / PGSIZE := Nat.div_le_div_right (by omega)
  refine ⟨c, hm, h.edit ht (hent ▸ hm.maps) fun v _ hv => ?_⟩
  unfold mapped
  rw [if_neg]
  rintro ⟨h1, h2⟩
  rw [hsel v h1 (by rcases hm.result with ⟨-, hc, -⟩ | ⟨-, hc, -⟩ <;> omega)] at hv
  cases hv

/-- One page in flight is mapped by an entry that owns its page; it stays in
    flight if memory is out. -/
theorem wp_mappages_owned (hlay : lay.Ok) (h : Forest lay sel R (pg :: F) s)
    (ht : R.root t = some r) {perm : Nat} (hperm : perm < 1024) (hrwx : rwx perm ≠ 0)
    (hsel : v < NPAGES → sel t v = true)
    (hnone : v < NPAGES ∧ ent R s.mem t v = none ∨ ∀ e t, E e t) :
    wp (mappages r (v * PGSIZE) PGSIZE pg perm)
      (fun res s' => res = 0 ∧ v < NPAGES ∧ ent R s.mem t v = none ∧
        s'.freelist.length + missing s.mem r (v * PGSIZE) = s.freelist.length ∧
        SamePage s.mem s'.mem pg ∧
        Edit lay sel R F t (· = v) s (mapped (ent R s.mem t) v 1 pg perm) s' ∨
        res = -1 ∧ s.freelist.length < missing s.mem r (v * PGSIZE) ∧ s'.freelist = [] ∧
        0 < missing s'.mem r (v * PGSIZE) ∧
        Edit lay sel R (pg :: F) t (fun _ => False) s (ent R s.mem t) s') E s := by
  have hpage := (h.owns.used_of_mem (r := pg) mem_cons_self).1
  by_cases hv : v < NPAGES
  case neg =>
    -- beyond the last page the walk panics
    have hge : ¬ v * PGSIZE < MAXVA := fun hlt => hv (page_div v ▸ div_lt hlt)
    rw [mappages, if_neg (by decide)]
    unfold PGROUNDDOWN
    rw [page_div]
    show wp (mappages_loop r _ perm (NPAGES + 1) _ pg) _ _ s
    rw [mappages_loop, wp_bind, walk, if_pos (by omega)]
    exact (hnone.resolve_left fun hc => hv hc.1) _ _
  have hent : entry s.mem r = ent R s.mem t := funext fun v => (ent_of_root ht).symm
  have hlast : (v * PGSIZE + PGSIZE - 1) / PGSIZE = v := by rw [PGSIZE_eq]; omega
  have hlt := page_lt hv
  have htree := h.tree ht
  refine (wp_mappages hlay hperm hrwx htree (by decide) ?_ hpage.lt ?_).post ?_
  · rw [NPAGES_eq] at hv
    unfold MAXVA
    rw [PGSIZE_eq]
    omega
  · intro w h1 h2
    rw [hlast] at h2
    rw [page_div] at h1
    obtain rfl : w = v := by omega
    rw [hent]
    exact hnone.imp_left And.right
  · rintro res s' ⟨c, hmapped⟩
    rw [hlast, page_div, Nat.sub_self] at hmapped
    have hcount := hmapped.count htree
    rw [lacking_passed_zero] at hcount
    obtain ⟨hc, hwas, hm, -⟩ := hmapped
    rw [hent] at hwas hm
    rcases hc with ⟨rfl, rfl, -⟩ | ⟨rfl, hc, -, n, hpath, hno⟩
    · have hnone := hwas v le_rfl (by omega)
      obtain ⟨-, hlen, -⟩ := hcount.resolve_right fun hc => absurd hc.1 (by decide)
      refine .inl ⟨rfl, hv, hnone, hlen, hm.kept pg (.inr mem_cons_self),
        h.edit_attach ht hm hv (hsel hv) hnone (if_pos (by omega)) ?_ fun w hw => if_neg (by omega)⟩
      have hal := hpage.1
      rw [Nat.sub_self, Nat.zero_mul, Nat.add_zero, Nat.mod_eq_of_lt hpage.lt,
        PTE2PA_leafEntry hperm hpage.lt]
      rw [PGSIZE_eq] at hal
      omega
    · obtain rfl : c = 0 := by omega
      rw [mapped_zero] at hm
      obtain ⟨-, hlen, hnil⟩ := hcount.resolve_left fun hc => absurd hc.1 (by decide)
      have hmiss : 0 < missing s'.mem r (v * PGSIZE) := by
        rw [← lacking_passed_zero, lacking, Set.ncard_pos]
        exact ⟨n, hpath, fun hc => (mem_tables.mp hc) hno⟩
      exact .inr ⟨rfl, hlen, hnil, hmiss, h.edit ht hm fun _ _ _ => rfl⟩

/-- A fresh page is mapped at page `v` of `t`; it is freed again if memory is
    out. -/
theorem Fresh.wp_map_or_free {b : Nat → UInt8} {k : VmM α}
    (h : Fresh lay sel R F pg b s s') (hlay : lay.Ok) (ht : R.root t = some r) {f : Nat}
    (hperm : f < 1024) (hrwx : rwx f ≠ 0) (hsel : v < NPAGES → sel t v = true)
    (hnone : v < NPAGES ∧ ent R s.mem t v = none ∨ ∀ e t, E e t)
    (hfail : ∀ s'', s.freelist.length ≤ missing s.mem r (v * PGSIZE) →
      s''.freelist.length ≤ missing s''.mem r (v * PGSIZE) →
      Edit lay sel R F t (fun _ => False) s (ent R s.mem t) s'' → wp g Q E s'')
    (hok : ∀ s'', v < NPAGES → ent R s.mem t v = none →
      s''.freelist.length + 1 + missing s.mem r (v * PGSIZE) = s.freelist.length →
      (∀ i, i < PGSIZE → s''.mem (pg + i) = b i) →
      Edit lay sel R F t (· = v) s (mapped (ent R s.mem t) v 1 pg f) s'' → wp k Q E s'') :
    wp (do
      if (← mappages r (v * PGSIZE) PGSIZE pg f) ≠ 0 then do
        kfree lay pg
        g
      else k) Q E s' := by
  have hent : ent R s'.mem t = ent R s.mem t := funext (h.keeps.ent fun _ => trivial)
  have hmiss := missing_congr (v * PGSIZE) (h.keeps.node (fun _ => trivial) ht)
  have hlen := h.length
  refine (wp_mappages_owned hlay h.forest ht hperm hrwx hsel (by rw [hent]; exact hnone)).seq ?_
  rw [hent, hmiss]
  rintro res s1 (⟨rfl, hv, hno, hlist, hsame, hedit⟩ | ⟨rfl, hlt, hnil, hpos, hedit⟩)
  · rw [if_neg (by decide)]
    refine hok s1 hv hno (by omega) (fun i hi => ?_) (.after h.keeps hedit)
    rw [hsame _ (by omega) (by omega), h.bytes i hi]
  · rw [if_pos (by decide), wp_bind]
    have hf := hedit.forest
    refine (VM.wp_kfree hf.heap (hf.owns.used_of_mem mem_cons_self)).post ?_
    rintro - _ rfl
    obtain ⟨hf', hk⟩ := hf.give
    -- one page is free again, and still one is missing
    have hmiss' : missing (s1.give pg).mem r (v * PGSIZE) = missing s1.mem r (v * PGSIZE) :=
      missing_congr _ (hk.node (fun _ => trivial) ht)
    have hone : (s1.give pg).freelist.length = 1 := by
      show (pg :: s1.freelist).length = 1
      rw [hnil]
      rfl
    exact hfail _ (by omega) (by omega)
      (.after h.keeps (hedit.andThen (fun _ hm => mem_cons_of_mem _ hm) hf' hk))

/-! ### `uvmunmap` -/

theorem wp_uvmunmap_shared (h : Forest lay sel R F s) (ht : R.root t = some r) {n : Nat}
    (hv : v + n ≤ NPAGES) (hsel : ∀ w, v ≤ w → w < v + n → sel t w = false) :
    wp (uvmunmap lay r (v * PGSIZE) n false)
      (fun _ s' => Edit lay sel R F t V s (unmapped (ent R s.mem t) v n) s') E s := by
  have hent : entry s.mem r = ent R s.mem t := funext fun v => (ent_of_root ht).symm
  have htree : TreeOk lay (Forest.others sel R s.mem t) (freed false (entry s.mem r) v n ++ F)
      r s := by
    rw [freed_false]
    exact h.tree ht
  refine (wp_uvmunmap hv htree).post ?_
  rintro - s' ⟨hm, -⟩
  rw [hent] at hm
  refine h.edit ht hm fun w _ hw => ?_
  unfold unmapped
  rw [if_neg]
  rintro ⟨h1, h2⟩
  rw [hsel w h1 h2] at hw
  cases hw

theorem freed_true (v n : Nat) :
    freed true M v n = (range' v n).filterMap fun w => (M w).map PTE2PA := by
  induction n generalizing v with
  | zero => rfl
  | succ n ih =>
    rw [freed, ih, range'_succ, filterMap_cons, if_pos rfl]
    cases M v with
    | none => rfl
    | some e => rfl

/-- The owned pages of a range are taken off and freed. -/
theorem wp_uvmunmap_owned (h : Forest lay sel R F s) (ht : R.root t = some r) {n : Nat}
    (hv : v + n ≤ NPAGES) (hsel : ∀ w, v ≤ w → w < v + n → sel t w = true) :
    wp (uvmunmap lay r (v * PGSIZE) n true)
      (fun _ s' =>
        Edit lay sel R F t (fun w => v ≤ w ∧ w < v + n) s (unmapped (ent R s.mem t) v n) s' ∧
        ∀ n, own sel R s'.mem (.node t n) = own sel R s.mem (.node t n)) E s := by
  have hent : entry s.mem r = ent R s.mem t := funext fun v => (ent_of_root ht).symm
  have hin : ∀ w, v ≤ w → w < v + n →
      own sel R s.mem (.leaf t w) = (entry s.mem r w).map PTE2PA := by
    intro w h1 h2
    rw [own, if_pos ⟨by omega, hsel w h1 h2⟩, hent]
  -- what the others hold without the pages of the range
  let rest : Owner T Z → Option Nat := fun o => match o with
    | .leaf u w => if u = t ∧ v ≤ w ∧ w < v + n then none else own sel R s.mem (.leaf u w)
    | o => Forest.others sel R s.mem t o
  let slots : List (Node ⊕ Owner T Z) := (range' v n).map fun w => .inr (.leaf t w)
  have hslot : ∀ u w, Sum.inr (.leaf u w) ∈ slots ↔ u = t ∧ v ≤ w ∧ w < v + n := by
    intro u w
    simp only [slots, mem_map, mem_range'_1, Sum.inr.injEq, Owner.leaf.injEq]
    constructor
    · rintro ⟨x, hx, rfl, rfl⟩
      exact ⟨rfl, hx⟩
    · rintro ⟨rfl, hw⟩
      exact ⟨w, hw, rfl, rfl⟩
  have hfreed : slots.filterMap (Sum.elim (node s.mem r) (Forest.others sel R s.mem t)) =
      freed true (entry s.mem r) v n := by
    rw [freed_true, filterMap_map]
    refine filterMap_congr fun w hw => ?_
    rw [mem_range'_1] at hw
    exact hin w hw.1 hw.2
  have howns : Owns (Sum.elim (node s.mem r) rest) (freed true (entry s.mem r) v n ++ F)
      (used lay s) := by
    classical
    rw [← hfreed]
    refine (h.tree ht).owns.detach_all ?_ ?_ ?_
    · refine List.Nodup.map (fun a b hab => ?_) nodup_range'
      exact (Owner.leaf.inj (Sum.inr.inj hab)).2
    · intro o ho
      obtain ⟨w, hw, rfl⟩ := mem_map.mp ho
      rw [mem_range'_1] at hw
      exact if_pos ⟨rfl, hw⟩
    · rintro (m | o) ho
      · rfl
      · cases o with
        | node u m => rfl
        | leaf u w => exact if_neg fun hc => ho ((hslot u w).mpr hc)
        | single z => rfl
  refine (wp_uvmunmap hv ((h.tree ht).reown howns)).post ?_
  rintro - s' ⟨hm, hnodes⟩
  have hentries : ∀ w, w < NPAGES → ent R s'.mem t w = unmapped (ent R s.mem t) v n w := by
    intro w hw
    rw [ent_of_root ht, hm.entries w hw, hent]
  obtain ⟨hf, ha⟩ := h.of_tree ht hm.tree hm.kept (fun _ _ => rfl) (fun _ => rfl) fun u w => by
    by_cases hu : u = t
    · subst hu
      rw [if_pos rfl]
      show (if _ then none else own sel R s.mem (.leaf u w)) = _
      by_cases hw : v ≤ w ∧ w < v + n
      · rw [if_pos ⟨rfl, hw⟩, own, if_pos ⟨by omega, hsel w hw.1 hw.2⟩, hentries w (by omega)]
        unfold unmapped
        rw [if_pos hw, Option.map_none]
      · rw [if_neg fun hc => hw hc.2]
        refine (own_leaf_congr fun hlt _ => ?_).symm
        rw [hentries w hlt]
        unfold unmapped
        rw [if_neg hw]
    · rw [if_neg hu]
      exact if_neg fun hc => hu hc.1
  have hsame : ∀ n, own sel R s'.mem (.node t n) = own sel R s.mem (.node t n) := by
    intro n
    rw [own_node ht, own_node ht, hnodes n]
  refine ⟨ha.edit hf ht hm.mono hm.low hentries (fun w _ hw _ => ?_) (fun o pg ho hpg => ?_)
      fun pg hpg =>
    hm.kept pg (.inr hpg), hsame⟩
  · unfold unmapped
    rw [if_neg hw]
  · refine hm.kept pg (.inl ⟨o, ?_⟩)
    rw [← hpg]
    cases o with
    | node u m => exact if_neg ho
    | leaf u w => exact if_neg fun hc => ho hc.1 hc.2
    | single z => rfl

end Forest

end NoviceKernel.VM
