import Mathlib.Data.List.Nodup
import Mathlib.Logic.Function.Iterate
import Mathlib.Tactic.Common

/-! # Circular doubly linked lists

    Nodes are linked by two pointers each, around a head node.

    * `Links`: the pointers, with the surgery that takes a node out and puts it
      behind the head.
    * `Seg`, `Cycle`: what list of nodes the pointers stand for.
    * **Surgery**: what `unlink` and `insert` do to that list.
    * **Walks**: following the pointers from the head, with and without a search,
      visits the nodes of the list, in either direction. -/

namespace Circular

open Function List

variable {ν : Type}

/-- The pointers of all nodes. -/
structure Links (ν : Type) where
  next : ν → ν
  prev : ν → ν

/-- The pointers `prev` lead from `b` back through `xs` to `a` as `next` leads from
    `a` to `b`. -/
def Seg (l : Links ν) (a : ν) : List ν → ν → Prop
  | [], b => l.next a = b ∧ l.prev b = a
  | x :: xs, b => l.next a = x ∧ l.prev x = a ∧ Seg l x xs b

/-- The nodes from `h` around to `h` are `xs`. -/
structure Cycle (l : Links ν) (h : ν) (xs : List ν) : Prop where
  nodup : (h :: xs).Nodup
  seg : Seg l h xs h

variable {l l' : Links ν} {a b c h x y : ν} {xs ys : List ν}

/-! ## Segments -/

/-- A segment depends on the pointers along it only. -/
theorem Seg.congr (hs : Seg l a xs b) (hnext : ∀ x ∈ a :: xs, l'.next x = l.next x)
    (hprev : ∀ x ∈ xs ++ [b], l'.prev x = l.prev x) : Seg l' a xs b := by
  induction xs generalizing a with
  | nil =>
    refine ⟨?_, ?_⟩
    · rw [hnext a (by simp)]
      exact hs.1
    · rw [hprev b (by simp)]
      exact hs.2
  | cons x xs ih =>
    obtain ⟨h1, h2, h3⟩ := hs
    refine ⟨?_, ?_, ih h3 ?_ ?_⟩
    · rw [hnext a (by simp)]
      exact h1
    · rw [hprev x (by simp)]
      exact h2
    · intro y hy
      exact hnext y (mem_cons_of_mem _ hy)
    · intro y hy
      exact hprev y (mem_cons_of_mem _ hy)

theorem Seg.append (hs : Seg l a (xs ++ c :: ys) b) : Seg l a xs c ∧ Seg l c ys b := by
  induction xs generalizing a with
  | nil => exact ⟨⟨hs.1, hs.2.1⟩, hs.2.2⟩
  | cons x xs ih =>
    obtain ⟨h1, h2, h3⟩ := hs
    obtain ⟨h4, h5⟩ := ih h3
    exact ⟨⟨h1, h2, h4⟩, h5⟩

theorem Seg.join (h₁ : Seg l a xs c) (h₂ : Seg l c ys b) : Seg l a (xs ++ c :: ys) b := by
  induction xs generalizing a with
  | nil => exact ⟨h₁.1, h₁.2, h₂⟩
  | cons x xs ih => exact ⟨h₁.1, h₁.2.1, ih h₁.2.2⟩

section

variable (hs : Seg l a xs b)
include hs

/-- The node before the end of a segment. -/
theorem Seg.prev_mem : l.prev b ∈ a :: xs := by
  induction xs generalizing a with
  | nil => simp [hs.2]
  | cons x xs ih => exact mem_cons_of_mem _ (ih hs.2.2)

/-- The node after the start of a segment. -/
theorem Seg.next_mem : l.next a ∈ xs ++ [b] := by
  cases xs with
  | nil => simp [hs.1]
  | cons x xs => simp [hs.1]

theorem Seg.prev_next (hx : x ∈ a :: xs) : l.prev (l.next x) = x := by
  induction xs generalizing a with
  | nil =>
    rw [mem_singleton.mp hx, hs.1]
    exact hs.2
  | cons y xs ih =>
    rcases mem_cons.mp hx with rfl | hx
    · rw [hs.1]
      exact hs.2.1
    · exact ih hs.2.2 hx

theorem Seg.next_prev (hx : x ∈ xs ++ [b]) : l.next (l.prev x) = x := by
  induction xs generalizing a with
  | nil =>
    rw [mem_singleton.mp hx, hs.2]
    exact hs.1
  | cons y xs ih =>
    rcases mem_cons.mp hx with rfl | hx
    · rw [hs.2.1]
      exact hs.1
    · exact ih hs.2.2 hx

/-- The pointers read the other way round. -/
def Links.flip (l : Links ν) : Links ν := ⟨l.prev, l.next⟩

theorem Seg.flip : Seg l.flip b xs.reverse a := by
  induction xs generalizing a with
  | nil => exact ⟨hs.2, hs.1⟩
  | cons x xs ih =>
    rw [reverse_cons]
    exact (ih hs.2.2).join ⟨hs.2.1, hs.1⟩

end

theorem Cycle.flip (hc : Cycle l h xs) : Cycle l.flip h xs.reverse where
  nodup := by
    have := hc.nodup
    rw [nodup_cons] at this ⊢
    exact ⟨by simpa using this.1, nodup_reverse.mpr this.2⟩
  seg := hc.seg.flip

/-! ## Surgery -/

section Surgery

variable [DecidableEq ν]

/-- `b->next->prev = b->prev; b->prev->next = b->next`. -/
def Links.unlink (l : Links ν) (b : ν) : Links ν :=
  let l := { l with prev := update l.prev (l.next b) (l.prev b) }
  { l with next := update l.next (l.prev b) (l.next b) }

/-- `b->next = h->next; b->prev = h; h->next->prev = b; h->next = b`. -/
def Links.insert (l : Links ν) (h b : ν) : Links ν :=
  let l := { l with next := update l.next b (l.next h) }
  let l := { l with prev := update l.prev b h }
  let l := { l with prev := update l.prev (l.next h) b }
  { l with next := update l.next h b }

theorem insert_next : (l.insert h b).next = update (update l.next b (l.next h)) h b := rfl

theorem insert_prev (hb : b ≠ h) :
    (l.insert h b).prev = update (update l.prev b h) (l.next h) b := by
  simp [Links.insert, update_of_ne hb.symm]

theorem unlink_prev : (l.unlink b).prev = update l.prev (l.next b) (l.prev b) := rfl

theorem unlink_next (hb : l.next b ≠ b) :
    (l.unlink b).next = update l.next (l.prev b) (l.next b) := by
  simp [Links.unlink, update_of_ne hb.symm]

/-- **A new node** behind the head. -/
theorem Cycle.insert (hc : Cycle l h xs) (hb : b ∉ h :: xs) : Cycle (l.insert h b) h (b :: xs) := by
  have hbh : b ≠ h := ne_of_not_mem_cons hb
  have hbx : b ∉ xs := fun hx => hb (mem_cons_of_mem _ hx)
  have hnd := hc.nodup
  have hhx : h ∉ xs := (nodup_cons.mp hnd).1
  have hnext : l.next h ≠ b := by
    intro he
    have hm := hc.seg.next_mem
    rw [he] at hm
    rcases mem_append.mp hm with hm | hm
    · exact hbx hm
    · exact hbh (mem_singleton.mp hm)
  refine ⟨?_, ?_, ?_, ?_⟩
  · simp [hbh.symm, hhx, hbx, (nodup_cons.mp hnd).2]
  · rw [insert_next, update_self]
  · rw [insert_prev hbh, update_of_ne hnext.symm, update_self]
  · -- the old list, now behind b
    cases xs with
    | nil =>
      have hh : l.next h = h := hc.seg.1
      refine ⟨?_, ?_⟩
      · rw [insert_next, update_of_ne hbh, update_self, hh]
      · rw [insert_prev hbh, hh, update_self]
    | cons y ys =>
      obtain ⟨hy, hy', hseg⟩ := hc.seg
      have hys : y ∉ ys := (nodup_cons.mp (nodup_cons.mp hnd).2).1
      have hyh : y ≠ h := fun he => hhx (he ▸ mem_cons_self)
      refine ⟨?_, ?_, hseg.congr ?_ ?_⟩
      · rw [insert_next, update_of_ne hbh, update_self, hy]
      · rw [insert_prev hbh, hy, update_self]
      · intro x hx
        have hxh : x ≠ h := fun he => hhx (he ▸ hx)
        have hxb : x ≠ b := fun he => hbx (he ▸ hx)
        rw [insert_next, update_of_ne hxh, update_of_ne hxb]
      · intro x hx
        have hxy : x ≠ y := by
          intro he
          rcases mem_append.mp hx with hx | hx
          · exact hys (he ▸ hx)
          · exact hyh (he ▸ mem_singleton.mp hx)
        have hxb : x ≠ b := by
          intro he
          rcases mem_append.mp hx with hx | hx
          · exact hbx (he ▸ mem_cons_of_mem _ hx)
          · exact hbh (he ▸ mem_singleton.mp hx)
        rw [insert_prev hbh, hy, update_of_ne hxy, update_of_ne hxb]

/-- Taking a node out of a segment; the end may be the start. -/
theorem Seg.unlink (hs : Seg l a (xs ++ b :: ys) c) (hnd : (a :: xs ++ b :: ys).Nodup)
    (hc : c ∉ xs ++ b :: ys) : Seg (l.unlink b) a (xs ++ ys) c := by
  obtain ⟨hleft, hright⟩ := hs.append
  have hnext := hright.next_mem
  have hprev := hleft.prev_mem
  have hnb : l.next b ≠ b := by
    intro he
    rw [he] at hnext
    rcases mem_append.mp hnext with hm | hm
    · have : (b :: ys).Nodup := hnd.sublist (sublist_append_right _ _)
      exact (nodup_cons.mp this).1 hm
    · exact hc (by simp [mem_singleton.mp hm])
  induction xs generalizing a with
  | nil =>
    have ha : l.prev b = a := hleft.2
    change (a :: b :: ys).Nodup at hnd
    change c ∉ b :: ys at hc
    change Seg (l.unlink b) a ys c
    cases ys with
    | nil =>
      refine ⟨?_, ?_⟩
      · rw [unlink_next hnb, ha, update_self, hright.1]
      · rw [unlink_prev, hright.1, update_self, ha]
    | cons y ys =>
      obtain ⟨hy, hy', hseg⟩ := hright
      have hay : a ∉ y :: ys := by
        have := (nodup_cons.mp hnd).1
        exact fun hm => this (mem_cons_of_mem _ hm)
      have hyys : y ∉ ys := by
        have := (nodup_cons.mp (nodup_cons.mp hnd).2).2
        exact (nodup_cons.mp this).1
      refine ⟨?_, ?_, hseg.congr ?_ ?_⟩
      · rw [unlink_next hnb, ha, update_self, hy]
      · rw [unlink_prev, hy, update_self, ha]
      · intro x hx
        rw [unlink_next hnb, ha, update_of_ne]
        exact fun he => hay (he ▸ hx)
      · intro x hx
        rw [unlink_prev, hy, update_of_ne]
        intro he
        rcases mem_append.mp hx with hm | hm
        · exact hyys (he ▸ hm)
        · exact hc (by rw [← mem_singleton.mp hm, he]; simp)
  | cons x xs ih =>
    obtain ⟨hx, hx', hrest⟩ := hs
    have hnd' : (x :: xs ++ b :: ys).Nodup := (nodup_cons.mp hnd).2
    have ha : a ∉ x :: xs ++ b :: ys := (nodup_cons.mp hnd).1
    have hxn : x ∉ xs ++ b :: ys := (nodup_cons.mp hnd').1
    have hcx : c ≠ x := fun he => hc (by simp [he])
    refine ⟨?_, ?_, ih hrest hnd' (fun hm => hc (mem_cons_of_mem _ hm)) hrest.append.1
      hrest.append.1.prev_mem⟩
    · rw [unlink_next hnb, update_of_ne, hx]
      intro he
      exact ha (mem_append_left _ (he ▸ hrest.append.1.prev_mem))
    · rw [unlink_prev, update_of_ne, hx']
      intro he
      rw [← he] at hnext
      rcases mem_append.mp hnext with hm | hm
      · exact hxn (mem_append_right _ (mem_cons_of_mem _ hm))
      · exact hcx (mem_singleton.mp hm).symm

/-- **Taking a node out.** -/
theorem Cycle.unlink (hc : Cycle l h (xs ++ b :: ys)) : Cycle (l.unlink b) h (xs ++ ys) := by
  have hnd := hc.nodup
  refine ⟨?_, hc.seg.unlink hnd (nodup_cons.mp hnd).1⟩
  refine hnd.sublist (List.Sublist.cons_cons h ?_)
  exact List.Sublist.append_left (sublist_cons_self b ys) xs

/-- **Moving a node** to the front. -/
theorem Cycle.moveToFront (hc : Cycle l h (xs ++ b :: ys)) :
    Cycle ((l.unlink b).insert h b) h (b :: (xs ++ ys)) := by
  apply hc.unlink.insert
  have hnd : (h :: b :: (xs ++ ys)).Nodup :=
    (List.Perm.cons h perm_middle).nodup_iff.mp hc.nodup
  intro hm
  rcases mem_cons.mp hm with he | hm
  · exact (nodup_cons.mp hnd).1 (he ▸ mem_cons_self)
  · exact (nodup_cons.mp (nodup_cons.mp hnd).2).1 hm

/-! ## Walks -/

/-- `for (b = ..; b != h; b = step(b)) if (test(b)) return b`, for at most `fuel` rounds:
    `none` if they were not enough. -/
def scan (step : ν → ν) (h : ν) (test : ν → Bool) : Nat → ν → Option (Option ν)
  | 0, _ => none
  | fuel + 1, b =>
    if b = h then some none
    else if test b then some (some b)
    else scan step h test fuel (step b)

/-- The search along `next` looks at the nodes in order. -/
theorem Seg.scan (hs : Seg l a xs h) (hh : h ∉ xs) (test : ν → Bool) {fuel : Nat}
    (hfuel : xs.length < fuel) : scan l.next h test fuel (l.next a) = some (xs.find? test) := by
  induction xs generalizing a fuel with
  | nil =>
    obtain ⟨fuel, rfl⟩ : ∃ n, fuel = n + 1 := ⟨fuel - 1, by simp at hfuel; omega⟩
    simp [Circular.scan, hs.1]
  | cons x xs ih =>
    obtain ⟨fuel, rfl⟩ : ∃ n, fuel = n + 1 := ⟨fuel - 1, by simp at hfuel; omega⟩
    have hxh : x ≠ h := fun he => hh (he ▸ mem_cons_self)
    have hlen : xs.length < fuel := by simpa using hfuel
    rw [hs.1, Circular.scan, if_neg hxh, find?_cons]
    cases test x with
    | true => rfl
    | false => exact ih hs.2.2 (fun hm => hh (mem_cons_of_mem _ hm)) hlen

/-- **Searches** from the head, forwards and backwards. -/
theorem Cycle.scan_next (hc : Cycle l h xs) (test : ν → Bool) {fuel : Nat}
    (hfuel : xs.length < fuel) : scan l.next h test fuel (l.next h) = some (xs.find? test) :=
  hc.seg.scan (nodup_cons.mp hc.nodup).1 test hfuel

theorem Cycle.scan_prev (hc : Cycle l h xs) (test : ν → Bool) {fuel : Nat}
    (hfuel : xs.length < fuel) :
    scan l.prev h test fuel (l.prev h) = some (xs.reverse.find? test) :=
  hc.flip.scan_next test (by simpa using hfuel)

end Surgery

/-- Following `next` along a segment. -/
theorem Seg.iterate (hs : Seg l a xs b) (k : Nat) (hk : k ≤ xs.length) :
    (xs ++ [b])[k]? = some (l.next^[k + 1] a) := by
  induction xs generalizing a k with
  | nil =>
    obtain rfl : k = 0 := by simpa using hk
    simp [hs.1]
  | cons x xs ih =>
    cases k with
    | zero => simp [hs.1]
    | succ k =>
      rw [Function.iterate_succ_apply, hs.1]
      exact ih hs.2.2 k (by simpa using hk)

end Circular
