import Mathlib.Data.Nat.Bitwise
import NoviceKernel.Vm

/-! # Three-level page-table trees in memory

    The tree of a root page has the page-table pages reached through valid
    entries (`node`) and the valid entries of its last level (`lookup`).

    Two kinds of writes change a tree: a zeroed page is hung below a page that
    has no entry there, and an entry of the last level is set.  As long as the
    pages of the tree are distinct, each of them changes one place of the tree
    and nothing else. -/

namespace NoviceKernel.VM

open Nat

theorem PGSIZE_eq : PGSIZE = 4096 := rfl

/-! ## Entries -/

theorem PX_eq (level va : Nat) : PX level va = va / 2 ^ (12 + 9 * level) % 512 := by
  unfold PX
  rw [shiftRight_eq_div_pow]
  exact and_two_pow_sub_one_eq_mod _ 9

theorem PX_lt (level va : Nat) : PX level va < 512 := by
  rw [PX_eq]
  exact mod_lt _ (by decide)

theorem PA2PTE_eq (pa : Nat) : PA2PTE pa = pa / 4096 * 1024 := by
  unfold PA2PTE
  rw [shiftRight_eq_div_pow, shiftLeft_eq]

theorem PTE2PA_eq (e : Nat) : PTE2PA e = e / 1024 * 4096 % 2 ^ 64 := by
  unfold PTE2PA
  rw [shiftRight_eq_div_pow, shiftLeft_eq]

theorem PTE_FLAGS_eq (e : Nat) : PTE_FLAGS e = e % 1024 := and_two_pow_sub_one_eq_mod e 10

/-- The valid bit. -/
def valid (e : Nat) : Bool := e &&& PTE_V != 0

theorem valid_iff {e : Nat} : valid e = true ↔ e &&& PTE_V ≠ 0 := bne_iff_ne

theorem valid_eq (e : Nat) : valid e = decide (e % 2 = 1) := by
  unfold valid PTE_V
  rw [and_one_is_mod]
  rcases mod_two_eq_zero_or_one e with h | h <;> rw [h] <;> rfl

/-- The entry that `mappages` writes. -/
def leafEntry (pa perm : Nat) : Nat := PA2PTE pa ||| perm ||| PTE_V

variable {pa perm : Nat}

theorem leafEntry_eq (h : perm < 1024) : leafEntry pa perm = pa / 4096 * 1024 + (perm ||| 1) := by
  have h1 : perm ||| 1 < 1024 := Nat.or_lt_two_pow (n := 10) h (by decide)
  unfold leafEntry PTE_V
  rw [PA2PTE_eq, Nat.or_assoc, Nat.mul_comm, ← Nat.two_pow_add_eq_or_of_lt (i := 10) h1]

theorem or_one_odd (perm : Nat) : (perm ||| 1) % 2 = 1 := by
  simp

theorem leafEntry_lt (h : perm < 1024) (hpa : pa < 2 ^ 64) : leafEntry pa perm < 2 ^ 64 := by
  have h1 : perm ||| 1 < 1024 := or_lt_two_pow (n := 10) h (by decide)
  rw [leafEntry_eq h]
  omega

theorem valid_leafEntry (h : perm < 1024) : valid (leafEntry pa perm) = true := by
  have := or_one_odd perm
  rw [valid_eq, leafEntry_eq h, decide_eq_true_iff]
  omega

theorem PTE2PA_leafEntry (h : perm < 1024) (hpa : pa < 2 ^ 64) :
    PTE2PA (leafEntry pa perm) = pa / 4096 * 4096 := by
  have h1 : perm ||| 1 < 1024 := or_lt_two_pow (n := 10) h (by decide)
  rw [PTE2PA_eq, leafEntry_eq h]
  omega

theorem PTE_FLAGS_leafEntry (h : perm < 1024) : PTE_FLAGS (leafEntry pa perm) = perm ||| PTE_V := by
  have h1 : perm ||| 1 < 1024 := or_lt_two_pow (n := 10) h (by decide)
  rw [PTE_FLAGS_eq, leafEntry_eq h]
  show _ = perm ||| 1
  omega

/-- The entry of a page-table page. -/
theorem tableEntry_eq (pg : Nat) : PA2PTE pg ||| PTE_V = leafEntry pg 0 := by
  unfold leafEntry
  rw [or_zero]

/-- The read, write and execute bits: zero for an entry of a page-table page. -/
def rwx (e : Nat) : Nat := e &&& (PTE_R ||| PTE_W ||| PTE_X)

theorem rwx_flags (e : Nat) : rwx (PTE_FLAGS e) = rwx e := by
  unfold rwx PTE_FLAGS
  rw [Nat.and_assoc]
  rfl

theorem rwx_leafEntry (h : perm < 1024) : rwx (leafEntry pa perm) = rwx perm := by
  rw [← rwx_flags, PTE_FLAGS_leafEntry h]
  unfold rwx
  rw [and_or_distrib_right]
  exact or_zero _

/-- A leaf is not mistaken for a page-table page. -/
theorem flags_ne_of_rwx {e : Nat} (h : rwx e ≠ 0) : PTE_FLAGS e ≠ PTE_V := by
  intro he
  rw [← rwx_flags, he] at h
  exact h rfl

/-! ## Words and pages -/

section Memory

variable {m m' : Nat → UInt8} {pg pg' i i' v : Nat}

/-- Two memories agree on a page. -/
def SamePage (m m' : Nat → UInt8) (pg : Nat) : Prop := ∀ a, pg ≤ a → a < pg + PGSIZE → m' a = m a

theorem SamePage.refl (m : Nat → UInt8) (pg : Nat) : SamePage m m pg := fun _ _ _ => rfl

theorem SamePage.trans {m'' : Nat → UInt8} (h : SamePage m m' pg) (h' : SamePage m' m'' pg) :
    SamePage m m'' pg := fun a h1 h2 => (h' a h1 h2).trans (h a h1 h2)

open Bytes

theorem SamePage.pte (h : SamePage m m' pg) (hi : i < 512) : VM.pte m' pg i = VM.pte m pg i := by
  apply load_congr
  intro x h1 h2
  exact h x (by omega) (by rw [PGSIZE_eq]; omega)

section

variable (hpg : pg % PGSIZE = 0) (hpg' : pg' % PGSIZE = 0)
include hpg hpg'

/-- A write to another page. -/
theorem samePage_store (hne : pg' ≠ pg) (hi : i < 512) :
    SamePage m (store m (pg + 8 * i) 8 v) pg' := by
  intro a h1 h2
  rw [PGSIZE_eq] at *
  exact if_neg (by omega)

theorem samePage_fill {c : UInt8} (hne : pg' ≠ pg) : SamePage m (fill m pg PGSIZE c) pg' := by
  intro a h1 h2
  rw [PGSIZE_eq] at *
  exact if_neg (by omega)

theorem pte_store (hi : i < 512) (hi' : i' < 512) :
    pte (store m (pg + 8 * i) 8 v) pg' i' =
      if pg' = pg ∧ i' = i then v % 2 ^ 64 else pte m pg' i' := by
  by_cases h : pg' = pg ∧ i' = i
  · rw [if_pos h, h.1, h.2]
    exact load_store_same m _ 8 v
  · rw [if_neg h]
    apply load_store_disjoint
    rw [PGSIZE_eq] at *
    omega

end

theorem pte_zero (hi : i < 512) : pte (fill m pg PGSIZE 0) pg i = 0 :=
  load_fill_zero (by omega) (by rw [PGSIZE_eq]; omega)

end Memory

/-! ## Trees -/

/-- The places of page-table pages in a tree. -/
inductive Node where
  | root
  | mid (i : Fin 512)
  | leaf (i j : Fin 512)
  deriving DecidableEq

/-- The index of `va` at a level. -/
def ix (level va : Nat) : Fin 512 := ⟨PX level va, PX_lt level va⟩

section

variable (m : Nat → UInt8)

/-- The page that entry `i` of a page-table page points to. -/
def child (pg : Nat) (i : Fin 512) : Option Nat :=
  if valid (pte m pg i) then some (PTE2PA (pte m pg i)) else none

/-- The page at a place of the tree. -/
def node (root : Nat) : Node → Option Nat
  | .root => some root
  | .mid i => child m root i
  | .leaf i j => (child m root i).bind fun pg => child m pg j

/-- Entry `i` of a page of the last level, if it is valid. -/
def validEntry (pg : Nat) (i : Fin 512) : Option Nat :=
  if valid (pte m pg i) then some (pte m pg i) else none

/-- A valid entry of the last level. -/
def entryAt (root : Nat) (i j k : Fin 512) : Option Nat :=
  (node m root (.leaf i j)).bind fun pg => validEntry m pg k

/-- The entry for a virtual address. -/
def lookup (root va : Nat) : Option Nat :=
  entryAt m root (ix 2 va) (ix 1 va) (ix 0 va)

/-- The pages of a tree are distinct. -/
structure Distinct (root : Nat) : Prop where
  aligned : ∀ {s pg}, node m root s = some pg → pg % PGSIZE = 0
  inj : ∀ {s t pg}, node m root s = some pg → node m root t = some pg → s = t

end

variable {t : Node} {p : Nat}

section Tree

variable {m m' : Nat → UInt8} {root pg v : Nat} {i j k : Fin 512}

theorem child_congr (h : SamePage m m' pg) : child m' pg i = child m pg i := by
  unfold child
  rw [h.pte i.isLt]

theorem validEntry_congr (h : SamePage m m' pg) : validEntry m' pg i = validEntry m pg i := by
  unfold validEntry
  rw [h.pte i.isLt]

theorem child_of_zero (h : pte m pg i = 0) : child m pg i = none := by
  unfold child
  rw [h]
  rfl

theorem validEntry_of_zero (h : pte m pg i = 0) : validEntry m pg i = none := by
  unfold validEntry
  rw [h]
  rfl

theorem node_leaf : node m root (.leaf i j) = (node m root (.mid i)).bind fun pg => child m pg j :=
  rfl

/-- A tree depends only on its own pages. -/
theorem node_congr (h : ∀ s pg, node m root s = some pg → SamePage m m' pg) (s : Node) :
    node m' root s = node m root s := by
  have hmid : ∀ i, child m' root i = child m root i := fun i => child_congr (h .root root rfl)
  cases s with
  | root => rfl
  | mid i => exact hmid i
  | leaf i j =>
    rw [node_leaf, node_leaf]
    show (child m' root i).bind _ = (child m root i).bind _
    rw [hmid]
    exact Option.bind_congr fun p hc => child_congr (h (.mid i) p hc)

theorem entryAt_congr (h : ∀ s pg, node m root s = some pg → SamePage m m' pg) :
    entryAt m' root i j k = entryAt m root i j k := by
  unfold entryAt
  rw [node_congr h]
  exact Option.bind_congr fun p hc => validEntry_congr (h _ p hc)

/-- A write to a page of the tree, seen from the other pages. -/
theorem store_other (hd : Distinct m root) {s : Node} {q : Nat} (hs : node m root s = some p)
    (ht : node m root t = some q) (hne : t ≠ s) (i : Fin 512) (v : Nat) :
    SamePage m (Bytes.store m (p + 8 * i) 8 v) q :=
  samePage_store (hd.aligned hs) (hd.aligned ht) (fun e => hne (hd.inj ht (e ▸ hs))) i.isLt

section

variable (hp : p % PGSIZE = 0) (i' : Fin 512)
include hp i'

theorem pte_store_self :
    pte (Bytes.store m (p + 8 * i) 8 v) p i' = if i' = i then v % 2 ^ 64 else pte m p i' := by
  rw [pte_store hp hp i.isLt i'.isLt]
  exact if_congr ⟨fun h => Fin.ext h.2, fun h => ⟨rfl, congrArg Fin.val h⟩⟩ rfl rfl

theorem child_store :
    child (Bytes.store m (p + 8 * i) 8 v) p i' =
      if i' = i then (if valid (v % 2 ^ 64) then some (PTE2PA (v % 2 ^ 64)) else none)
      else child m p i' := by
  unfold child
  rw [pte_store_self hp]
  by_cases h : i' = i
  · simp only [if_pos h]
  · simp only [if_neg h]

theorem validEntry_store :
    validEntry (Bytes.store m (p + 8 * i) 8 v) p i' =
      if i' = i then (if valid (v % 2 ^ 64) then some (v % 2 ^ 64) else none)
      else validEntry m p i' := by
  unfold validEntry
  rw [pte_store_self hp]
  by_cases h : i' = i
  · simp only [if_pos h]
  · simp only [if_neg h]

end

/-- The entry of a page-table page leads to it. -/
theorem tableEntry_child {pg : Nat} (hpg : pg % PGSIZE = 0) (hlt : pg < 2 ^ 64) :
    (if valid ((PA2PTE pg ||| PTE_V) % 2 ^ 64) then some (PTE2PA ((PA2PTE pg ||| PTE_V) % 2 ^ 64))
      else none) = some pg := by
  rw [tableEntry_eq, Nat.mod_eq_of_lt (leafEntry_lt (by decide) hlt), valid_leafEntry (by decide),
    PTE2PA_leafEntry (by decide) hlt]
  rw [PGSIZE_eq] at hpg
  rw [if_pos rfl, Nat.div_mul_cancel (Nat.dvd_of_mod_eq_zero hpg)]

/-! ### Changes -/

/-- The place of the entry below which a page hangs. -/
def Node.parent : Node → Node × Fin 512
  | .root => (.root, 0)
  | .mid i => (.root, i)
  | .leaf i j => (.mid i, j)

theorem node_parent (ht : t ≠ .root) :
    node m root t = (node m root t.parent.1).bind fun p => child m p t.parent.2 := by
  cases t with
  | root => exact absurd rfl ht
  | mid i => rfl
  | leaf i j => rfl

/-- A zeroed page is hung into an empty place. -/
theorem hang (hd : Distinct m root) (ht : t ≠ .root) (hp : node m root t.parent.1 = some p)
    (hnone : child m p t.parent.2 = none) (hpg : pg % PGSIZE = 0) (hlt : pg < 2 ^ 64)
    (hfresh : ∀ s, node m root s ≠ some pg) (hzero : ∀ i : Fin 512, pte m pg i = 0)
    (hm' : m' = Bytes.store m (p + 8 * t.parent.2) 8 (PA2PTE pg ||| PTE_V)) :
    (∀ s, node m' root s = if s = t then some pg else node m root s) ∧
    ∀ i j k, entryAt m' root i j k = entryAt m root i j k := by
  have hpa := hd.aligned hp
  have hsame : ∀ s q, node m root s = some q → s ≠ t.parent.1 → SamePage m m' q := by
    intro s q hs hne
    rw [hm']
    exact store_other hd hp hs hne _ _
  have hpage : SamePage m m' pg := by
    rw [hm']
    exact samePage_store hpa hpg (fun e => hfresh _ (e ▸ hp)) t.parent.2.isLt
  have hchild : ∀ i', child m' p i' = if i' = t.parent.2 then some pg else child m p i' := by
    intro i'
    rw [hm', child_store hpa, tableEntry_child hpg hlt]
  have hempty : node m root t = none := by
    rw [node_parent ht, hp]
    exact hnone
  have hnode : ∀ s, node m' root s = if s = t then some pg else node m root s := by
    -- below a page that did not change, the children are the same
    have hkeep : ∀ s i', s ≠ t.parent.1 →
        ((node m root s).bind fun q => child m' q i') = (node m root s).bind fun q =>
          child m q i' := by
      intro s i' hne
      exact Option.bind_congr fun q hs => child_congr (hsame s q hs hne)
    cases t with
    | root => exact absurd rfl ht
    | mid i =>
      obtain rfl : root = p := Option.some.inj hp
      have hchild : ∀ i', child m' root i' = if i' = i then some pg else child m root i' := hchild
      intro s
      cases s with
      | root => rfl
      | mid i' =>
        show child m' root i' = _
        rw [hchild]
        exact if_congr (by simp) rfl rfl
      | leaf i' j =>
        rw [if_neg nofun]
        show (child m' root i').bind _ = _
        rw [hchild]
        by_cases hi : i' = i
        · subst hi
          rw [if_pos rfl, node_leaf, hempty]
          show child m' pg j = none
          rw [child_congr hpage, child_of_zero (hzero j)]
        · rw [if_neg hi]
          exact hkeep (.mid i') j nofun
    | leaf i j =>
      have hroot : ∀ i', child m' root i' = child m root i' := fun i' =>
        child_congr (hsame .root root rfl nofun)
      intro s
      cases s with
      | root => rfl
      | mid i' => exact hroot i'
      | leaf i' j' =>
        show (child m' root i').bind _ = _
        rw [hroot]
        by_cases hi : i' = i
        · subst hi
          have hp' : child m root i' = some p := hp
          rw [node_leaf]
          show _ = if _ then _ else (child m root i').bind _
          rw [hp']
          show child m' p j' = if _ then some pg else child m p j'
          rw [hchild]
          exact if_congr (by simp [Node.parent]) rfl rfl
        · rw [if_neg (by simp [hi])]
          exact hkeep (.mid i') j' (by simpa [Node.parent] using hi)
  refine ⟨hnode, ?_⟩
  intro i j k
  unfold entryAt
  rw [hnode]
  by_cases hl : .leaf i j = t
  · rw [if_pos hl, hl, hempty]
    show validEntry m' pg k = none
    rw [validEntry_congr hpage, validEntry_of_zero (hzero k)]
  · rw [if_neg hl]
    exact Option.bind_congr fun q hn => validEntry_congr (hsame _ q hn (by cases t <;> exact nofun))

/-- An entry of the last level is set. -/
theorem set_entry (hd : Distinct m root) (hp : node m root (.leaf i j) = some p)
    (hm' : m' = Bytes.store m (p + 8 * k) 8 v) :
    (∀ s, node m' root s = node m root s) ∧
      ∀ i' j' k', entryAt m' root i' j' k' = if i' = i ∧ j' = j ∧ k' = k
        then (if valid (v % 2 ^ 64) then some (v % 2 ^ 64) else none)
        else entryAt m root i' j' k' := by
  have hsame : ∀ s q, node m root s = some q → s ≠ .leaf i j → SamePage m m' q := by
    intro s q hs hne
    rw [hm']
    exact store_other hd hp hs hne _ _
  have hnode : ∀ s, node m' root s = node m root s := by
    have hroot : ∀ i', child m' root i' = child m root i' := fun i' =>
      child_congr (hsame .root root rfl nofun)
    intro s
    cases s with
    | root => rfl
    | mid i' => exact hroot i'
    | leaf i' j' =>
      rw [node_leaf, node_leaf]
      show (child m' root i').bind _ = (child m root i').bind _
      rw [hroot]
      exact Option.bind_congr fun q hc => child_congr (hsame (.mid i') q hc nofun)
  refine ⟨hnode, ?_⟩
  intro i' j' k'
  unfold entryAt
  rw [hnode]
  by_cases hij : Node.leaf i' j' = .leaf i j
  · obtain ⟨rfl, rfl⟩ := Node.leaf.inj hij
    rw [hp]
    show validEntry m' p k' = if _ then _ else validEntry m p k'
    rw [hm', validEntry_store (hd.aligned hp)]
    exact if_congr (by simp) rfl rfl
  · rw [if_neg fun hc => hij (by rw [hc.1, hc.2.1])]
    exact Option.bind_congr fun q hn => validEntry_congr (hsame _ q hn hij)

end Tree

/-- The indices of an address determine its page. -/
theorem ix_inj {a b : Nat} (ha : a < MAXVA) (hb : b < MAXVA) :
    (ix 2 a = ix 2 b ∧ ix 1 a = ix 1 b ∧ ix 0 a = ix 0 b) ↔ a / PGSIZE = b / PGSIZE := by
  unfold MAXVA at ha hb
  simp only [ix, Fin.mk.injEq, PX_eq, PGSIZE_eq]
  norm_num
  omega

end NoviceKernel.VM
