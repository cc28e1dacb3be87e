import NoviceKernel.Lib.Hoare
import NoviceKernel.Lib.Ledger
import NoviceKernel.Sv39

/-! # What the page-table functions do

    A tree is in the company of other users of memory: `rest` are the pages that
    other slots own, `F` those in flight.  `TreeOk` says that the pages of the
    tree, of the others and in flight are all different and that the free list
    is the rest of memory.

    Each function has one specification: what happens to the entries of the
    tree, and that the pages of the others and those in flight are left alone
    (`Kept`). -/

namespace NoviceKernel.VM

open Hoare Ledger Function List

/-! ## The allocator -/

/-- A page that `kalloc` can hand out. -/
def isPage (lay : Layout) (pg : Nat) : Prop := pg % PGSIZE = 0 ∧ lay.ends ≤ pg ∧ pg < PHYSTOP

/-- A page that is handed out. -/
def used (lay : Layout) (s : Phys) (pg : Nat) : Prop := isPage lay pg ∧ pg ∉ s.freelist

/-- The free list and the reference counts agree. -/
structure Heap (lay : Layout) (s : Phys) : Prop where
  nodup : s.freelist.Nodup
  page : ∀ pg ∈ s.freelist, isPage lay pg
  free : ∀ pg ∈ s.freelist, s.refcount (pg / PGSIZE) = 0
  one : ∀ pg, used lay s pg → s.refcount (pg / PGSIZE) = 1

variable {E : Stop → Phys → Prop}

section Heap

variable {lay : Layout} {s s' : Phys} {pg pg' : Nat}

theorem isPage.pos (hlay : lay.Ok) (h : isPage lay pg) : pg ≠ 0 := by
  have h1 := h.2.1
  have h2 := hlay.etext_le
  have h3 := hlay.kernbase_lt
  omega

theorem isPage.lt (h : isPage lay pg) : pg < 2 ^ 64 := by
  have h1 := h.2.2
  unfold PHYSTOP KERNBASE at h1
  omega

/-- Different pages have different reference counts. -/
theorem pn_ne (h : isPage lay pg) (h' : isPage lay pg') (hne : pg ≠ pg') :
    pg / PGSIZE ≠ pg' / PGSIZE := by
  have h1 := h.1
  have h2 := h'.1
  rw [PGSIZE_eq] at *
  omega

/-- The state after `kalloc` took `pg`. -/
def Phys.take (s : Phys) (pg : Nat) : Phys :=
  ⟨Bytes.fill s.mem pg PGSIZE 5, s.freelist.tail, update s.refcount (pg / PGSIZE) 1⟩

/-- The state after `kfree` gave `pg` back. -/
def Phys.give (s : Phys) (pg : Nat) : Phys :=
  ⟨Bytes.fill s.mem pg PGSIZE 1, pg :: s.freelist, update s.refcount (pg / PGSIZE) 0⟩

theorem wp_kalloc (h : Heap lay s) :
    wp kalloc (fun r s' => r = 0 ∧ s' = s ∧ s.freelist = [] ∨
      s.freelist.head? = some r ∧ s' = s.take r) E s := by
  rw [kalloc, wp_bind, wp_get]
  split
  · next hnil => exact .inl ⟨rfl, rfl, hnil⟩
  · next r rest hcons =>
    rw [if_neg (by rw [h.free r (by rw [hcons]; exact mem_cons_self)]; exact fun hc => hc rfl)]
    refine .inr ⟨by rw [hcons]; rfl, ?_⟩
    unfold Phys.take
    rw [hcons]
    rfl

theorem Heap.take (h : Heap lay s) (hpg : s.freelist.head? = some pg) :
    Heap lay (s.take pg) ∧ isPage lay pg ∧ ¬ used lay s pg ∧
      ∀ x, used lay (s.take pg) x ↔ x = pg ∨ used lay s x := by
  obtain ⟨rest, hcons⟩ : ∃ rest, s.freelist = pg :: rest := by
    cases hl : s.freelist with
    | nil => rw [hl] at hpg; cases hpg
    | cons r rest => rw [hl] at hpg; cases hpg; exact ⟨rest, rfl⟩
  have htail : (s.take pg).freelist = rest := by unfold Phys.take; rw [hcons]; rfl
  have hnd := h.nodup
  rw [hcons] at hnd
  obtain ⟨hnot, hnd⟩ := nodup_cons.mp hnd
  have hmem : pg ∈ s.freelist := by rw [hcons]; exact mem_cons_self
  have hp := h.page pg hmem
  have hsub : ∀ x ∈ rest, x ∈ s.freelist := fun x hx => by rw [hcons]; exact mem_cons_of_mem _ hx
  have hused : ∀ x, used lay (s.take pg) x ↔ x = pg ∨ used lay s x := by
    intro x
    unfold used
    rw [htail, hcons]
    constructor
    · rintro ⟨h1, h2⟩
      by_cases hx : x = pg
      · exact .inl hx
      · exact .inr ⟨h1, by simp [hx, h2]⟩
    · rintro (rfl | ⟨h1, h2⟩)
      · exact ⟨hp, hnot⟩
      · exact ⟨h1, fun hx => h2 (mem_cons_of_mem _ hx)⟩
  refine ⟨⟨?_, ?_, ?_, ?_⟩, hp, fun hu => hu.2 hmem, hused⟩
  · rw [htail]; exact hnd
  · rw [htail]; exact fun x hx => h.page x (hsub x hx)
  · rw [htail]
    intro x hx
    show update s.refcount _ 1 _ = 0
    rw [update_of_ne (pn_ne (h.page x (hsub x hx)) hp (fun e => hnot (e ▸ hx))),
      h.free x (hsub x hx)]
  · intro x hx
    show update s.refcount _ 1 _ = 1
    rcases (hused x).mp hx with rfl | hx'
    · rw [update_self]
    · rw [update_of_ne (pn_ne hx'.1 hp (fun e => hx'.2 (e ▸ hmem))), h.one x hx']

/-- A page with one reference goes back to the free list. -/
theorem wp_kfree_one (hpg : isPage lay pg) (hone : s.refcount (pg / PGSIZE) = 1) :
    wp (kfree lay pg) (fun _ s' => s' = s.give pg) E s := by
  obtain ⟨h1, h2, h3⟩ := hpg
  rw [kfree, if_neg (by omega), wp_bind, wp_get]
  dsimp only
  rw [if_neg (by omega), wp_bind, wp_set, if_neg (by omega)]
  unfold Phys.give
  rw [hone]
  rfl

theorem wp_kfree (h : Heap lay s) (hpg : used lay s pg) :
    wp (kfree lay pg) (fun _ s' => s' = s.give pg) E s :=
  wp_kfree_one hpg.1 (h.one pg hpg)

theorem Heap.give (h : Heap lay s) (hpg : used lay s pg) :
    Heap lay (s.give pg) ∧ ∀ x, used lay (s.give pg) x ↔ x ≠ pg ∧ used lay s x := by
  have hused : ∀ x, used lay (s.give pg) x ↔ x ≠ pg ∧ used lay s x := by
    intro x
    unfold used
    show _ ∧ x ∉ pg :: s.freelist ↔ _
    rw [mem_cons, not_or]
    exact ⟨fun ⟨a, b, c⟩ => ⟨b, a, c⟩, fun ⟨b, a, c⟩ => ⟨a, b, c⟩⟩
  refine ⟨⟨nodup_cons.mpr ⟨hpg.2, h.nodup⟩, ?_, ?_, ?_⟩, hused⟩
  · intro x hx
    rcases mem_cons.mp hx with rfl | hx
    · exact hpg.1
    · exact h.page x hx
  · intro x hx
    show update s.refcount _ 0 _ = 0
    rcases mem_cons.mp hx with rfl | hx
    · rw [update_self]
    · rw [update_of_ne (pn_ne (h.page x hx) hpg.1 (fun e => hpg.2 (e ▸ hx))), h.free x hx]
  · intro x hx
    obtain ⟨hne, hx'⟩ := (hused x).mp hx
    show update s.refcount _ 0 _ = 1
    rw [update_of_ne (pn_ne hx'.1 hpg.1 hne), h.one x hx']

end Heap

variable {Q : Unit → Phys → Prop} {v : Nat}

section Wp

variable {s : Phys} {E : Stop → Phys → Prop} {a n : Nat} {r : PteRef}

open Bytes

@[simp] theorem wp_memset {c : UInt8} :
    wp (memset a c n) Q E s ↔ Q () { s with mem := fill s.mem a n c } := Iff.rfl

@[simp] theorem wp_memmove {src : Nat → UInt8} :
    wp (memmove a n src) Q E s ↔ Q () { s with mem := copy s.mem a n src } := Iff.rfl

@[simp] theorem wp_loadPte {Q : Nat → Phys → Prop} :
    wp (loadPte r) Q E s ↔ Q (pte s.mem r.pg r.i) s := Iff.rfl

@[simp] theorem wp_storePte :
    wp (storePte r v) Q E s ↔ Q () { s with mem := store s.mem (r.pg + 8 * r.i) 8 v } := Iff.rfl

end Wp

/-! ## A tree among other users of memory -/

variable {X : Type}

/-- The pages of the tree, of the others and in flight are different, and all
    that is in use. -/
structure TreeOk (lay : Layout) (rest : X → Option Nat) (F : List Nat) (root : Nat) (s : Phys) :
    Prop where
  heap : Heap lay s
  owns : Owns (Sum.elim (node s.mem root) rest) F (used lay s)
  /-- Entries above the last level are of page-table pages. -/
  inner : ∀ (i j : Fin 512) p, node s.mem root (.mid i) = some p → valid (pte s.mem p j) = true →
    rwx (pte s.mem p j) = 0
  top : ∀ i : Fin 512, valid (pte s.mem root i) = true → rwx (pte s.mem root i) = 0
  /-- Entries of the last level are leaves. -/
  leaves : ∀ i j k e, entryAt s.mem root i j k = some e → rwx e ≠ 0

/-- The pages of the others and those in flight are left alone. -/
def Kept (rest : X → Option Nat) (F : List Nat) (s s' : Phys) : Prop :=
  ∀ pg, (∃ x, rest x = some pg) ∨ pg ∈ F → SamePage s.mem s'.mem pg

variable {t : Node} {p va : Nat}

section Tree

variable {lay : Layout} {rest : X → Option Nat} {F : List Nat} {root pg : Nat} {s s' s'' : Phys}
  {i j k : Fin 512}

theorem Kept.refl (s : Phys) : Kept rest F s s := fun pg _ => .refl _ pg

theorem Kept.trans (h : Kept rest F s s') (h' : Kept rest F s' s'') : Kept rest F s s'' :=
  fun pg hpg => (h pg hpg).trans (h' pg hpg)

open Sum

theorem elim_congr {f g : Node → Option Nat} (h : ∀ t, f t = g t) (p : Node ⊕ X) :
    Sum.elim f rest p = Sum.elim g rest p := by
  obtain rfl : f = g := funext h
  rfl

namespace TreeOk

section

variable {t : Node} {F' : List Nat} (h : TreeOk lay rest F root s)
include h

theorem page (ht : node s.mem root t = some pg) : used lay s pg :=
  h.owns.used_of_own (s := inl t) ht

theorem distinct : Distinct s.mem root where
  aligned := fun ht => (h.page ht).1.1
  inj := fun hs ht => inl.inj (h.owns.inj (s := inl _) (t := inl _) hs ht)

/-- A page of the others, or in flight, is in use and not one of the tree. -/
theorem other (hpg : (∃ x, rest x = some pg) ∨ pg ∈ F) :
    used lay s pg ∧ ∀ t, node s.mem root t ≠ some pg := by
  rcases hpg with ⟨x, hx⟩ | hm
  · exact ⟨h.owns.used_of_own (s := inr x) hx, fun t ht =>
      nomatch (h.owns.inj (s := inl t) (t := inr x) ht hx)⟩
  · exact ⟨h.owns.used_of_mem hm, fun t ht => h.owns.apart (s := inl t) ht hm⟩

/-- A change of memory outside the tree. -/
theorem change (hsame : ∀ t pg, node s.mem root t = some pg → SamePage s.mem s'.mem pg)
    (hheap : Heap lay s') (howns : Owns (Sum.elim (node s.mem root) rest) F' (used lay s')) :
    TreeOk lay rest F' root s' ∧ (∀ t, node s'.mem root t = node s.mem root t) ∧
    ∀ i j k, entryAt s'.mem root i j k = entryAt s.mem root i j k := by
  have hnode := node_congr hsame
  have hentry : ∀ i j k, entryAt s'.mem root i j k = entryAt s.mem root i j k :=
    fun i j k => entryAt_congr hsame
  refine ⟨⟨hheap, ?_, ?_, ?_, ?_⟩, hnode, hentry⟩
  · exact howns.congr (elim_congr hnode) fun _ => Iff.rfl
  · intro i j p hp
    rw [hnode] at hp
    rw [(hsame _ p hp).pte j.isLt]
    exact h.inner i j p hp
  · intro i
    rw [(hsame .root root rfl).pte i.isLt]
    exact h.top i
  · intro i j k e
    rw [hentry]
    exact h.leaves i j k e

/-- `kalloc`: the page is in flight. -/
theorem alloc (hpg : s.freelist.head? = some pg) :
    TreeOk lay rest (pg :: F) root (s.take pg) ∧
    (∀ t, node (s.take pg).mem root t = node s.mem root t) ∧
    (∀ i j k, entryAt (s.take pg).mem root i j k = entryAt s.mem root i j k) ∧
    Kept rest F s (s.take pg) := by
  obtain ⟨hheap, hp, hnot, hused⟩ := h.heap.take hpg
  have hsame : ∀ x, used lay s x → SamePage s.mem (s.take pg).mem x := fun x hx =>
    samePage_fill hp.1 hx.1.1 fun e => hnot (e ▸ hx)
  obtain ⟨h1, h2, h3⟩ : TreeOk lay rest (pg :: F) root (s.take pg) ∧ _ :=
    h.change (fun t x hx => hsame x (h.page hx)) hheap (h.owns.alloc hnot hused)
  exact ⟨h1, h2, h3, fun x hx => hsame x (h.other hx).1⟩

end

variable (h : TreeOk lay rest (pg :: F) root s)
include h

/-- `kfree` of a page in flight. -/
theorem give :
    TreeOk lay rest F root (s.give pg) ∧ (∀ t, node (s.give pg).mem root t = node s.mem root t) ∧
    (∀ i j k, entryAt (s.give pg).mem root i j k = entryAt s.mem root i j k) ∧
    Kept rest F s (s.give pg) := by
  obtain ⟨hpg, hno⟩ := h.other (.inr (mem_cons_self (a := pg)))
  obtain ⟨hheap, hused⟩ := h.heap.give hpg
  have hown := h.owns.free hused
  obtain ⟨h1, h2, h3⟩ : TreeOk lay rest F root (s.give pg) ∧ _ := h.change (fun t x hx =>
    samePage_fill hpg.1.1 (h.page hx).1.1 fun e => hno t (e ▸ hx)) hheap hown
  refine ⟨h1, h2, h3, fun x hx => ?_⟩
  have hne : x ≠ pg := by
    rintro rfl
    rcases hx with ⟨y, hy⟩ | hm
    · exact h.owns.apart (s := Sum.inr y) hy mem_cons_self
    · exact (nodup_cons.mp h.owns.nodup).1 hm
  refine samePage_fill hpg.1.1 ?_ hne
  exact (h.other (hx.imp_right fun hm => mem_cons_of_mem _ hm)).1.1.1

/-- A page in flight that is all zero is hung into an empty place. -/
theorem hang_page (ht : t ≠ .root) (hp : node s.mem root t.parent.1 = some p)
    (hnone : child s.mem p t.parent.2 = none) (hzero : ∀ i : Fin 512, pte s.mem pg i = 0)
    (hs' : s' = { s with mem := Bytes.store s.mem (p + 8 * t.parent.2) 8 (PA2PTE pg ||| PTE_V) }) :
    TreeOk lay rest F root s' ∧
    (∀ u, node s'.mem root u = if u = t then some pg else node s.mem root u) ∧
    (∀ i j k, entryAt s'.mem root i j k = entryAt s.mem root i j k) ∧ Kept rest F s s' := by
  obtain ⟨hused, hno⟩ := h.other (.inr (mem_cons_self (a := pg)))
  obtain ⟨hpgA, -⟩ := hused.1
  have hpA := (h.page hp).1.1
  have hm' : s'.mem = Bytes.store s.mem (p + 8 * t.parent.2) 8 (PA2PTE pg ||| PTE_V) := by rw [hs']
  obtain ⟨hnode, hentry⟩ := hang h.distinct ht hp hnone hpgA hused.1.lt hno hzero hm'
  have hempty : node s.mem root t = none := by
    rw [node_parent ht, hp]
    exact hnone
  -- what an entry of an inner page can be now
  have hpte : ∀ q (i : Fin 512), used lay s q → q ≠ pg → valid (pte s'.mem q i) = true →
      valid (pte s.mem q i) = true ∧ pte s'.mem q i = pte s.mem q i ∨ rwx (pte s'.mem q i) = 0 := by
    intro q i hq hne hv
    rw [hm', pte_store hpA hq.1.1 t.parent.2.isLt i.isLt] at hv ⊢
    split
    · refine .inr ?_
      rw [tableEntry_eq, Nat.mod_eq_of_lt (leafEntry_lt (by decide) hused.1.lt),
        rwx_leafEntry (by decide)]
      rfl
    · next hc =>
      rw [if_neg hc] at hv
      exact .inl ⟨hv, rfl⟩
  have hzero' : ∀ i : Fin 512, pte s'.mem pg i = 0 := by
    intro i
    rw [hm', pte_store hpA hpgA t.parent.2.isLt i.isLt, if_neg (fun hc => hno _ (hc.1 ▸ hp)), hzero]
  refine ⟨⟨?_, ?_, ?_, ?_, ?_⟩, hnode, hentry, ?_⟩
  · rw [hs']
    exact ⟨h.heap.nodup, h.heap.page, h.heap.free, h.heap.one⟩
  · have hu : ∀ x, used lay s' x ↔ used lay s x := fun x => by rw [hs']; rfl
    refine ((h.owns.congr (fun _ => rfl) hu).attach (s := inl t) hempty ?_ ?_)
    · show node s'.mem root t = some pg
      rw [hnode, if_pos rfl]
    · rintro (u | x) hne
      · show node s'.mem root u = node s.mem root u
        rw [hnode, if_neg fun e => hne (congrArg inl e)]
      · rw [elim_inr, elim_inr]
  · intro i j q hq hv
    rw [hnode] at hq
    by_cases hi : Node.mid i = t
    · rw [if_pos hi] at hq
      rw [← Option.some.inj hq, hzero' j] at hv
      cases hv
    · rw [if_neg hi] at hq
      rcases hpte q j (h.page hq) (fun e => hno _ (e ▸ hq)) hv with ⟨hv', he⟩ | h0
      · rw [he]; exact h.inner i j q hq hv'
      · exact h0
  · intro i hv
    rcases hpte root i (h.page (t := .root) rfl) (fun e => hno .root (congrArg some e)) hv
      with ⟨hv', he⟩ | h0
    · rw [he]; exact h.top i hv'
    · exact h0
  · intro i j k e he
    rw [hentry] at he
    exact h.leaves i j k e he
  · intro x hx
    obtain ⟨hux, hnx⟩ := h.other (hx.imp_right fun hm => mem_cons_of_mem _ hm)
    rw [hm']
    exact samePage_store hpA hux.1.1 (fun e => hnx _ (e ▸ hp)) t.parent.2.isLt

omit h in
/-- An entry of the last level is set to a leaf, or cleared. -/
theorem set (h : TreeOk lay rest F root s) (hp : node s.mem root (.leaf i j) = some p)
    (hv : v < 2 ^ 64) (hleaf : valid v = true → rwx v ≠ 0)
    (hs' : s' = { s with mem := Bytes.store s.mem (p + 8 * k) 8 v }) :
    TreeOk lay rest F root s' ∧ (∀ u, node s'.mem root u = node s.mem root u) ∧
      (∀ i' j' k', entryAt s'.mem root i' j' k' =
        if i' = i ∧ j' = j ∧ k' = k then (if valid v then some v else none)
        else entryAt s.mem root i' j' k') ∧
      Kept rest F s s' := by
  have hm' : s'.mem = Bytes.store s.mem (p + 8 * k) 8 v := by rw [hs']
  have hpA := (h.page hp).1.1
  obtain ⟨hnode, hentry⟩ := set_entry h.distinct hp hm'
  rw [Nat.mod_eq_of_lt hv] at hentry
  have hsame : ∀ t q, node s.mem root t = some q → t ≠ .leaf i j → SamePage s.mem s'.mem q := by
    intro t q ht hne
    rw [hm']
    exact store_other h.distinct hp ht hne _ _
  refine ⟨⟨?_, ?_, ?_, ?_, ?_⟩, hnode, hentry, ?_⟩
  · rw [hs']
    exact ⟨h.heap.nodup, h.heap.page, h.heap.free, h.heap.one⟩
  · exact h.owns.congr (elim_congr hnode) fun x => by rw [hs']; rfl
  · intro i' j' q hq
    rw [hnode] at hq
    rw [(hsame _ q hq nofun).pte j'.isLt]
    exact h.inner i' j' q hq
  · intro i'
    rw [(hsame .root root rfl nofun).pte i'.isLt]
    exact h.top i'
  · intro i' j' k' e he
    rw [hentry] at he
    split at he
    · split at he
      · next hval => exact Option.some.inj he ▸ hleaf hval
      · cases he
    · exact h.leaves i' j' k' e he
  · intro x hx
    obtain ⟨hux, hnx⟩ := h.other hx
    rw [hm']
    exact samePage_store hpA hux.1.1 (fun e => hnx _ (e ▸ hp)) k.isLt

/-- Memory changes in a page in flight only. -/
theorem write_float {m : Nat → UInt8} (hm : ∀ x, x % PGSIZE = 0 → x ≠ pg → SamePage s.mem m x) :
    TreeOk lay rest (pg :: F) root { s with mem := m } ∧ (∀ t, node m root t = node s.mem root t) ∧
    (∀ i j k, entryAt m root i j k = entryAt s.mem root i j k) ∧
    Kept rest F s { s with mem := m } := by
  obtain ⟨-, hno⟩ := h.other (.inr (mem_cons_self (a := pg)))
  obtain ⟨h1, h2, h3⟩ : TreeOk lay rest (pg :: F) root { s with mem := m } ∧ _ :=
      h.change (fun t x hx =>
    hm x (h.page hx).1.1 fun e => hno t (e ▸ hx)) ⟨h.heap.nodup, h.heap.page, h.heap.free,
    h.heap.one⟩ (h.owns.congr (fun _ => rfl) fun _ => Iff.rfl)
  refine ⟨h1, h2, h3, fun x hx => ?_⟩
  refine hm x (h.other (hx.imp_right fun hm => mem_cons_of_mem _ hm)).1.1.1 ?_
  rintro rfl
  rcases hx with ⟨y, hy⟩ | hmem
  · exact h.owns.apart (s := Sum.inr y) hy mem_cons_self
  · exact (nodup_cons.mp h.owns.nodup).1 hmem

end TreeOk

/-! ## `walk` -/

/-- The tree has the page-table pages it had, and has got new ones at places in
    `P` only. -/
structure Places (root : Nat) (P : Node → Prop) (s s' : Phys) : Prop where
  mono : ∀ t p, node s.mem root t = some p → node s'.mem root t = some p
  only : ∀ t, node s'.mem root t ≠ none → node s.mem root t ≠ none ∨ P t

section Places

variable {P P' : Node → Prop}

theorem Places.refl (s : Phys) : Places root P s s := ⟨fun _ _ hp => hp, fun _ ht => .inl ht⟩

theorem Places.of_eq (h : ∀ t, node s'.mem root t = node s.mem root t) : Places root P s s' :=
  ⟨fun t _ hp => (h t).trans hp, fun t ht => .inl (h t ▸ ht)⟩

variable (h : Places root P s s')
include h

theorem Places.trans (h' : Places root P s' s'') : Places root P s s'' where
  mono := fun t p hp => h'.mono t p (h.mono t p hp)
  only := fun t ht => (h'.only t ht).elim (h.only t) .inr

theorem Places.weaken (hP : ∀ t, P t → P' t) : Places root P' s s' :=
  ⟨h.mono, fun t ht => (h.only t ht).imp_right (hP t)⟩

theorem Places.present (ht : node s.mem root t ≠ none) : node s'.mem root t ≠ none := by
  obtain ⟨p, hp⟩ := Option.ne_none_iff_exists'.mp ht
  rw [h.mono t p hp]
  exact Option.some_ne_none p

end Places

/-- The tree may have grown by page-table pages at places in `P`; its entries
    are the same. -/
structure Grew (lay : Layout) (rest : X → Option Nat) (F : List Nat) (root : Nat) (P : Node → Prop)
    (s s' : Phys) : Prop where
  tree : TreeOk lay rest F root s'
  kept : Kept rest F s s'
  places : Places root P s s'
  entries : ∀ i j k, entryAt s'.mem root i j k = entryAt s.mem root i j k

section Grew

variable {P P' : Node → Prop}

theorem Grew.refl (h : TreeOk lay rest F root s) : Grew lay rest F root P s s :=
  ⟨h, .refl s, .refl s, fun _ _ _ => rfl⟩

theorem Grew.trans (h : Grew lay rest F root P s s') (h' : Grew lay rest F root P s' s'') :
    Grew lay rest F root P s s'' where
  tree := h'.tree
  kept := h.kept.trans h'.kept
  places := h.places.trans h'.places
  entries := fun i j k => (h'.entries i j k).trans (h.entries i j k)

theorem Grew.weaken (h : Grew lay rest F root P s s') (hP : ∀ t, P t → P' t) :
    Grew lay rest F root P' s s' :=
  ⟨h.tree, h.kept, h.places.weaken hP, h.entries⟩

end Grew

/-- The places below the root that a walk for `va` passes. -/
def onPath (va : Nat) (t : Node) : Prop := t = .mid (ix 2 va) ∨ t = .leaf (ix 2 va) (ix 1 va)

variable {E : Stop → Phys → Prop} {level : Nat}

/-- One level of a walk that allocates. -/
theorem wp_walk_level (h : TreeOk lay rest F root s) (ht : t ≠ .root)
    (hp : node s.mem root t.parent.1 = some p) (hix : t.parent.2 = ix level va) (hlay : lay.Ok) :
    wp (walk_level level p va true) (fun r s' => Grew lay rest F root (· = t) s s' ∧
      (r = none ∧ s'.freelist = [] ∧ node s'.mem root t = none ∨
        ∃ pg, r = some pg ∧ node s'.mem root t = some pg)) E s := by
  have hchild : node s.mem root t = child s.mem p (ix level va) := by
    rw [node_parent ht, hp, ← hix]
    rfl
  rw [walk_level, wp_bind, wp_loadPte]
  split
  · next hv =>
    refine ⟨.refl h, .inr ⟨_, rfl, ?_⟩⟩
    rw [hchild]
    exact if_pos (valid_iff.mpr hv)
  · next hv =>
    have hnone : child s.mem p (ix level va) = none :=
      if_neg fun hc => hv (valid_iff.mp hc)
    rw [if_neg (by decide)]
    refine (wp_kalloc h.heap).seq ?_
    rintro pg s1 (⟨rfl, rfl, hnil⟩ | ⟨hpg, rfl⟩)
    · exact ⟨.refl h, .inl ⟨rfl, hnil, hchild.trans hnone⟩⟩
    · obtain ⟨h1, hn1, he1, hk1⟩ := h.alloc hpg
      have hpage := (h.heap.take hpg).2.1
      rw [if_neg (hpage.pos hlay), wp_bind, wp_memset, wp_bind, wp_storePte]
      obtain ⟨h2, hn2, he2, hk2⟩ := h1.write_float
        (m := Bytes.fill (s.take pg).mem pg PGSIZE 0) fun x hx hne => samePage_fill hpage.1 hx hne
      generalize hs2 : ({ s.take pg with mem := Bytes.fill (s.take pg).mem pg PGSIZE 0 } : Phys) =
        s2 at *
      have hm2 : s2.mem = Bytes.fill (s.take pg).mem pg PGSIZE 0 := by rw [← hs2]
      rw [← hm2] at hn2 he2
      have hp2 : node s2.mem root t.parent.1 = some p := by rw [hn2, hn1, hp]
      have hnone2 : child s2.mem p t.parent.2 = none := by
        have : node s2.mem root t = none := by rw [hn2, hn1, hchild, hnone]
        rw [node_parent ht, hp2] at this
        exact this
      obtain ⟨h3, hn3, he3, hk3⟩ := h2.hang_page ht hp2 hnone2
        (fun i => by rw [hm2]; exact pte_zero i.isLt) rfl
      rw [hix] at *
      -- all other places are as before
      have hother : ∀ u, u ≠ t → node (Bytes.store s2.mem (p + 8 * (ix level va : Nat)) 8
          (PA2PTE pg ||| PTE_V)) root u = node s.mem root u := fun u hu =>
        (hn3 u).trans ((if_neg hu).trans (by rw [hn2, hn1]))
      refine ⟨⟨h3, hk1.trans (hk2.trans hk3), ⟨?_, ?_⟩, ?_⟩, .inr ⟨pg, rfl, ?_⟩⟩
      · intro u q hu
        have hne : u ≠ t := by
          rintro rfl
          rw [hchild, hnone] at hu
          cases hu
        exact (hother u hne).trans hu
      · intro u hu
        by_cases hne : u = t
        · exact .inr hne
        · exact .inl (hother u hne ▸ hu)
      · exact fun i j k => (he3 i j k).trans ((he2 i j k).trans (he1 i j k))
      · exact (hn3 t).trans (if_pos rfl)

/-- A walk that allocates leads to the place of the entry, unless memory is
    out. -/
theorem wp_walk (hlay : lay.Ok) (h : TreeOk lay rest F root s) (hva : va < MAXVA) :
    wp (walk root va true) (fun r s' => Grew lay rest F root (onPath va) s s' ∧
      (r = none ∧ s'.freelist = [] ∧ (∃ t, onPath va t ∧ node s'.mem root t = none) ∨
        ∃ pg, r = some ⟨pg, PX 0 va⟩ ∧ node s'.mem root (.leaf (ix 2 va) (ix 1 va)) = some pg ∧
          ∀ t, onPath va t → node s'.mem root t ≠ none)) E s := by
  rw [walk, if_neg (by omega)]
  refine (wp_walk_level h (t := .mid (ix 2 va)) nofun rfl rfl hlay).seq ?_
  rintro r s1 ⟨hg1, ⟨rfl, hnil, hno⟩ | ⟨p, rfl, hp⟩⟩
  · exact ⟨hg1.weaken fun _ => .inl, .inl ⟨rfl, hnil, _, .inl rfl, hno⟩⟩
  · dsimp only
    refine (wp_walk_level hg1.tree (t := .leaf (ix 2 va) (ix 1 va)) nofun hp rfl hlay).seq ?_
    rintro r s2 ⟨hg2, hr⟩
    have hg : Grew lay rest F root (onPath va) s s2 :=
      (hg1.weaken fun _ => .inl).trans (hg2.weaken fun _ => .inr)
    rcases hr with ⟨rfl, hnil, hno⟩ | ⟨q, rfl, hq⟩
    · exact ⟨hg, .inl ⟨rfl, hnil, _, .inr rfl, hno⟩⟩
    · refine ⟨hg, .inr ⟨q, rfl, hq, ?_⟩⟩
      rintro t (rfl | rfl)
      · exact hg2.places.present (by rw [hp]; exact Option.some_ne_none p)
      · rw [hq]
        exact Option.some_ne_none q

/-- Memory below the heap (the kernel and the trampoline) is as before. -/
def SameBelow (lay : Layout) (s s' : Phys) : Prop := ∀ x, x < lay.ends → s'.mem x = s.mem x

theorem SameBelow.trans (h : SameBelow lay s s') (h' : SameBelow lay s' s'') :
    SameBelow lay s s'' :=
  fun x hx => (h' x hx).trans (h x hx)

theorem sameBelow_take (hpg : isPage lay pg) : SameBelow lay s (s.take pg) := by
  intro x hx
  have := hpg.2.1
  exact if_neg (by omega)

/-- `kfree` checks that the page is in the heap. -/
theorem wp_kfree_below (pg : Nat) :
    wp (kfree lay pg) (fun _ s' => SameBelow lay s s') (fun _ _ => True) s := by
  rw [kfree]
  split
  · trivial
  · next hpg =>
    rw [wp_bind, wp_get]
    dsimp only
    split
    · trivial
    rw [wp_bind, wp_set]
    split
    · exact fun _ _ => rfl
    · exact fun x hx => if_neg (by omega)

theorem wp_walk_level_below (h : TreeOk lay rest F root s) (hp : node s.mem root t = some p)
    (hlay : lay.Ok) : wp (walk_level level p va true) (fun _ s' => SameBelow lay s s') E s := by
  have hge := (h.page hp).1.2.1
  rw [walk_level, wp_bind, wp_loadPte]
  split
  · exact fun _ _ => rfl
  · rw [if_neg (by decide)]
    refine (wp_kalloc h.heap).seq ?_
    rintro pg s1 (⟨rfl, rfl, -⟩ | ⟨hpg, rfl⟩)
    · exact fun _ _ => rfl
    · have hpage := (h.heap.take hpg).2.1
      rw [if_neg (hpage.pos hlay), wp_bind, wp_memset, wp_bind, wp_storePte]
      refine (sameBelow_take hpage).trans fun x hx => ?_
      have := hpage.2.1
      exact (if_neg (by dsimp only; omega)).trans (if_neg (by omega))

/-- A walk writes to the heap only. -/
theorem wp_walk_below (hlay : lay.Ok) (h : TreeOk lay rest F root s) (hva : va < MAXVA) :
    wp (walk root va true) (fun _ s' => SameBelow lay s s') E s := by
  rw [walk, if_neg (by omega), wp_bind]
  have hroot : node s.mem root .root = some root := rfl
  have hlevel := wp_walk_level (E := E) h (t := .mid (ix 2 va)) nofun rfl rfl hlay
  refine (hlevel.and (wp_walk_level_below (E := E) h hroot hlay)).mono ?_ fun _ _ he => he.1
  rintro r s1 ⟨⟨hg, ⟨rfl, -⟩ | ⟨p, rfl, hp⟩⟩, hbelow⟩
  · exact hbelow
  · dsimp only
    refine (wp_walk_level_below hg.tree hp hlay).seq ?_
    intro r s2 hbelow2
    cases r with
    | none => exact hbelow.trans hbelow2
    | some q => exact hbelow.trans hbelow2

/-- A walk that does not allocate only reads. -/
theorem wp_walk_read (hva : va < MAXVA) :
    wp (walk root va false) (fun r s' => s' = s ∧
      r = (node s.mem root (.leaf (ix 2 va) (ix 1 va))).map fun pg => ⟨pg, PX 0 va⟩) E s := by
  have hlevel : ∀ {level p} {Q : Option Nat → Phys → Prop},
      Q (child s.mem p (ix level va)) s → wp (walk_level level p va false) Q E s := by
    intro level p Q hQ
    rw [walk_level, wp_bind, wp_loadPte]
    unfold child at hQ
    split
    · next hv =>
      have hval : valid (pte s.mem p (ix level va)) = true := valid_iff.mpr hv
      rw [if_pos hval] at hQ
      exact hQ
    · next hv =>
      have hval : ¬ valid (pte s.mem p (ix level va)) = true := fun hc => hv (valid_iff.mp hc)
      rw [if_neg hval] at hQ
      exact hQ
  rw [walk, if_neg (by omega), wp_bind]
  apply hlevel
  rw [node_leaf]
  cases h1 : node s.mem root (.mid (ix 2 va)) with
  | none =>
    have h1' : child s.mem root (ix 2 va) = none := h1
    rw [h1']
    exact ⟨rfl, rfl⟩
  | some p =>
    have h1' : child s.mem root (ix 2 va) = some p := h1
    rw [h1']
    dsimp only
    rw [wp_bind]
    apply hlevel
    rw [Option.bind_some]
    cases h2 : child s.mem p (ix 1 va) with
    | none => exact ⟨rfl, rfl⟩
    | some q => exact ⟨rfl, rfl⟩

end Tree

end NoviceKernel.VM
