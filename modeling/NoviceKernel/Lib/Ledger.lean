import Mathlib.Data.List.Basic
import Mathlib.Data.Set.Card
import Mathlib.Tactic.Common

/-! # Exclusive ownership

    Resources are handed out by an allocator, hang in slots and go back to the
    allocator.  A ledger has the slots (`own`, a slot holds a resource or is
    empty), the resources in flight (a list `F`: handed out and held by no
    slot) and the allocator's own record of what is in use (`used`).

    `Owns` says that they agree: no resource is in two places, and the record
    is exactly what the slots and the resources in flight add up to.

    * **Moves**: hand out, hang into an empty slot, take off, give back.
    * **Whole groups**: taking off every slot of a list at once.
    * **Counting**: free, in flight and held resources add up. -/

namespace Ledger

open List

variable {S R : Type}

/-- Slots, resources in flight and the record of use agree. -/
structure Owns (own : S → Option R) (F : List R) (used : R → Prop) : Prop where
  inj : ∀ {s t r}, own s = some r → own t = some r → s = t
  apart : ∀ {s r}, own s = some r → r ∉ F
  nodup : F.Nodup
  iff : ∀ r, used r ↔ r ∈ F ∨ ∃ s, own s = some r

variable {own own' : S → Option R} {F F' : List R} {used used' : R → Prop} {r : R} {s : S}

namespace Owns

section

variable {T : Type} {own₂ : T → Option R} (h : Owns own F used)
include h

theorem used_of_own (hs : own s = some r) : used r :=
  (h.iff r).mpr (.inr ⟨s, hs⟩)

theorem used_of_mem (hr : r ∈ F) : used r := (h.iff r).mpr (.inl hr)

/-- The order of the resources in flight does not matter. -/
theorem perm (hp : F.Perm F') : Owns own F' used where
  inj := h.inj
  apart := fun hs hm => h.apart hs (hp.mem_iff.mpr hm)
  nodup := hp.nodup_iff.mp h.nodup
  iff := fun r => by rw [h.iff r, hp.mem_iff]

theorem congr (ho : ∀ s, own' s = own s) (hu : ∀ r, used' r ↔ used r) : Owns own' F used' := by
  obtain rfl : own' = own := funext ho
  obtain rfl : used' = used := funext fun r => propext (hu r)
  exact h

/-- The same holdings under other names: `e` renames the slots that hold
    something, `g` goes back. -/
theorem reindex (g : T → S) (e : S → T)
    (hg : ∀ t r, own₂ t = some r → own (g t) = some r ∧ e (g t) = t)
    (he : ∀ s r, own s = some r → own₂ (e s) = some r) : Owns own₂ F used where
  inj := by
    intro s t r hs ht
    obtain ⟨hs', hes⟩ := hg s r hs
    obtain ⟨ht', het⟩ := hg t r ht
    rw [← hes, ← het, h.inj hs' ht']
  apart := fun ht => h.apart (hg _ _ ht).1
  nodup := h.nodup
  iff := by
    intro r
    rw [h.iff r]
    refine or_congr_right ⟨?_, ?_⟩
    · rintro ⟨s, hs⟩
      exact ⟨e s, he s r hs⟩
    · rintro ⟨t, ht⟩
      exact ⟨g t, (hg t r ht).1⟩

/-! ## Moves -/

/-- Hand out a resource that is not in use. -/
theorem alloc (hr : ¬ used r) (hu : ∀ x, used' x ↔ x = r ∨ used x) : Owns own (r :: F) used' where
  inj := h.inj
  apart := by
    intro s x hs hm
    rcases mem_cons.mp hm with rfl | hm
    · exact hr (h.used_of_own hs)
    · exact h.apart hs hm
  nodup := nodup_cons.mpr ⟨fun hm => hr (h.used_of_mem hm), h.nodup⟩
  iff := fun x => by rw [hu, h.iff, mem_cons, or_assoc]

end

/-- Hang a resource in flight into an empty slot. -/
theorem attach (h : Owns own (r :: F) used) (hs : own s = none) (hself : own' s = some r)
    (hother : ∀ t, t ≠ s → own' t = own t) : Owns own' F used := by
  have hback : ∀ {t x}, own' t = some x → t = s ∧ x = r ∨ t ≠ s ∧ own t = some x := by
    intro t x ht
    by_cases hts : t = s
    · subst hts
      exact .inl ⟨rfl, Option.some.inj (ht.symm.trans hself)⟩
    · exact .inr ⟨hts, (hother t hts).symm.trans ht⟩
  have hfresh : ∀ {t}, own t ≠ some r := fun ht => h.apart ht mem_cons_self
  obtain ⟨hrF, hF⟩ := nodup_cons.mp h.nodup
  refine ⟨?_, ?_, hF, ?_⟩
  · intro t u x ht hu
    rcases hback ht with ⟨hts, hx⟩ | ⟨-, ht'⟩ <;> rcases hback hu with ⟨hus, hx'⟩ | ⟨-, hu'⟩
    · rw [hts, hus]
    · exact absurd (hx ▸ hu') hfresh
    · exact absurd (hx' ▸ ht') hfresh
    · exact h.inj ht' hu'
  · intro t x ht hm
    rcases hback ht with ⟨-, rfl⟩ | ⟨-, ht⟩
    · exact hrF hm
    · exact h.apart ht (mem_cons_of_mem _ hm)
  · intro x
    rw [h.iff, mem_cons]
    constructor
    · rintro ((rfl | hm) | ⟨t, ht⟩)
      · exact .inr ⟨s, hself⟩
      · exact .inl hm
      · refine .inr ⟨t, ?_⟩
        rw [hother t (by rintro rfl; rw [hs] at ht; cases ht), ht]
    · rintro (hm | ⟨t, ht⟩)
      · exact .inl (.inr hm)
      · rcases hback ht with ⟨-, rfl⟩ | ⟨-, ht⟩
        · exact .inl (.inl rfl)
        · exact .inr ⟨t, ht⟩

/-- Take the resource of a slot off. -/
theorem detach (h : Owns own F used) (hs : own s = some r) (hself : own' s = none)
    (hother : ∀ t, t ≠ s → own' t = own t) : Owns own' (r :: F) used := by
  have hback : ∀ {t x}, own' t = some x → t ≠ s ∧ own t = some x := by
    intro t x ht
    have hts : t ≠ s := by rintro rfl; rw [hself] at ht; cases ht
    exact ⟨hts, (hother t hts).symm.trans ht⟩
  refine ⟨fun ht hu => h.inj (hback ht).2 (hback hu).2, ?_,
    nodup_cons.mpr ⟨h.apart hs, h.nodup⟩, ?_⟩
  · intro t x ht hm
    obtain ⟨hts, ht⟩ := hback ht
    rcases mem_cons.mp hm with rfl | hm
    · exact hts (h.inj ht hs)
    · exact h.apart ht hm
  · intro x
    rw [h.iff, mem_cons]
    constructor
    · rintro (hm | ⟨t, ht⟩)
      · exact .inl (.inr hm)
      · by_cases hts : t = s
        · subst hts
          exact .inl (.inl (Option.some.inj (ht.symm.trans hs)))
        · exact .inr ⟨t, (hother t hts).trans ht⟩
    · rintro ((rfl | hm) | ⟨t, ht⟩)
      · exact .inr ⟨s, hs⟩
      · exact .inl hm
      · exact .inr ⟨t, (hback ht).2⟩

/-- Give a resource in flight back. -/
theorem free (h : Owns own (r :: F) used) (hu : ∀ x, used' x ↔ x ≠ r ∧ used x) :
    Owns own F used' := by
  obtain ⟨hrF, hF⟩ := nodup_cons.mp h.nodup
  refine ⟨h.inj, fun hs hm => h.apart hs (mem_cons_of_mem _ hm), hF, fun x => ?_⟩
  rw [hu, h.iff, mem_cons]
  constructor
  · rintro ⟨hne, (heq | hm) | hs⟩
    · exact absurd heq hne
    · exact .inl hm
    · exact .inr hs
  · rintro (hm | ⟨s, hs⟩)
    · exact ⟨by rintro rfl; exact hrF hm, .inl (.inr hm)⟩
    · exact ⟨by rintro rfl; exact h.apart hs mem_cons_self, .inr ⟨s, hs⟩⟩

/-! ## Whole groups -/

/-- Take off every slot of a list. -/
theorem detach_all [DecidableEq S] {ss : List S} (h : Owns own F used) (hss : ss.Nodup)
    (hself : ∀ s ∈ ss, own' s = none) (hother : ∀ t, t ∉ ss → own' t = own t) :
    Owns own' (ss.filterMap own ++ F) used := by
  induction ss generalizing own F with
  | nil => exact h.congr (fun s => hother s not_mem_nil) fun _ => Iff.rfl
  | cons s ss ih =>
    obtain ⟨hs, hss⟩ := nodup_cons.mp hss
    -- first the head, then the rest from the ledger without it
    let own1 : S → Option R := fun t => if t = s then none else own t
    have hrest : ss.filterMap own1 = ss.filterMap own :=
      filterMap_congr fun t ht => if_neg (by rintro rfl; exact hs ht)
    have hself1 : ∀ t ∈ ss, own' t = none := fun t ht => hself t (mem_cons_of_mem _ ht)
    have hother1 : ∀ t, t ∉ ss → own' t = own1 t := by
      intro t ht
      by_cases hts : t = s
      · rw [hts, hself s mem_cons_self]
        exact (if_pos rfl).symm
      · rw [hother t (by simp [hts, ht])]
        exact (if_neg hts).symm
    cases hr : own s with
    | none =>
      have h1 : Owns own1 F used := by
        refine h.congr (fun t => ?_) fun _ => Iff.rfl
        by_cases hts : t = s
        · rw [hts, hr]; exact if_pos rfl
        · exact if_neg hts
      have := ih h1 hss hself1 hother1
      rwa [hrest, ← filterMap_cons_none hr] at this
    | some r =>
      have h1 : Owns own1 (r :: F) used := h.detach hr (if_pos rfl) fun t ht => if_neg ht
      have := ih h1 hss hself1 hother1
      rw [hrest] at this
      rw [filterMap_cons_some hr]
      exact this.perm perm_middle

/-! ## Counting -/

/-- The free resources, those in flight and the slots that hold one add up to
    all there is. -/
theorem card {U : Finset R} {L : List R} (h : Owns own F used) (hL : L.Nodup)
    (hsub : ∀ r ∈ L, r ∈ U) (hu : ∀ r, used r ↔ r ∈ U ∧ r ∉ L) :
    L.length + F.length + {s | (own s).isSome = true}.ncard = U.card := by
  classical
  let H : Finset R := U.filter fun r => ∃ s, own s = some r
  have hH : ∀ {r}, r ∈ H ↔ ∃ s, own s = some r := by
    intro r
    rw [Finset.mem_filter]
    exact ⟨fun hr => hr.2, fun ⟨s, hs⟩ => ⟨((hu r).mp (h.used_of_own hs)).1, s, hs⟩⟩
  -- a slot that holds something is named by what it holds
  have hslots : {s | (own s).isSome = true}.ncard = H.card := by
    rw [← Set.ncard_coe_finset]
    refine Set.ncard_congr (fun s hs => (own s).get hs) ?_ ?_ ?_
    · intro s hs
      exact hH.mpr ⟨s, (Option.some_get hs).symm⟩
    · intro s t hs ht he
      exact h.inj (Option.some_get hs).symm (he ▸ (Option.some_get ht).symm)
    · intro r hr
      obtain ⟨s, hs⟩ := hH.mp hr
      exact ⟨s, by rw [Set.mem_ofPred_eq, hs]; rfl, by simp only [hs, Option.get_some]⟩
  have hFH : Disjoint F.toFinset H := by
    rw [Finset.disjoint_left]
    intro r hr hr'
    obtain ⟨s, hs⟩ := hH.mp hr'
    exact h.apart hs (mem_toFinset.mp hr)
  have hLrest : Disjoint L.toFinset (F.toFinset ∪ H) := by
    rw [Finset.disjoint_left]
    intro r hr hr'
    have : used r := by
      rw [h.iff]
      exact (Finset.mem_union.mp hr').imp mem_toFinset.mp hH.mp
    exact ((hu r).mp this).2 (mem_toFinset.mp hr)
  have hU : U = L.toFinset ∪ (F.toFinset ∪ H) := by
    ext r
    rw [Finset.mem_union, Finset.mem_union, mem_toFinset, mem_toFinset, hH, ← h.iff, hu]
    by_cases hr : r ∈ L
    · simp [hr, hsub r hr]
    · simp [hr]
  rw [hslots, ← toFinset_card_of_nodup hL, ← toFinset_card_of_nodup h.nodup, Nat.add_assoc,
    ← Finset.card_union_of_disjoint hFH, ← Finset.card_union_of_disjoint hLrest, ← hU]

/-- Finitely many slots hold something if there are finitely many resources. -/
theorem finite_slots {U : Finset R} (h : Owns own F used) (hu : ∀ r, used r → r ∈ U) :
    {s | (own s).isSome = true}.Finite := by
  refine Set.Finite.of_injOn (t := some '' (U : Set R)) (f := own) ?_ ?_ (U.finite_toSet.image some)
  · intro s hs
    obtain ⟨r, hr⟩ := Option.isSome_iff_exists.mp hs
    exact ⟨r, hu r (h.used_of_own hr), hr.symm⟩
  · intro s hs t _ he
    obtain ⟨r, hr⟩ := Option.isSome_iff_exists.mp hs
    exact h.inj hr (he ▸ hr)

/-- A group of slots takes from the free resources and gives to them, the other
    slots and what is in flight stay: what the group holds more, is free less. -/
theorem card_group {A B : Type} {own own' : A → Option R} {rest : B → Option R} {U : Finset R}
    {L L' : List R} (h : Owns (Sum.elim own rest) F used) (h' : Owns (Sum.elim own' rest) F used')
    (hL : L.Nodup) (hsub : ∀ r ∈ L, r ∈ U) (hu : ∀ r, used r ↔ r ∈ U ∧ r ∉ L) (hL' : L'.Nodup)
    (hsub' : ∀ r ∈ L', r ∈ U) (hu' : ∀ r, used' r ↔ r ∈ U ∧ r ∉ L') :
    L.length + {a | (own a).isSome = true}.ncard =
      L'.length + {a | (own' a).isSome = true}.ncard := by
  have hsplit : ∀ {f : A → Option R} {v : R → Prop}, Owns (Sum.elim f rest) F v →
    (∀ r, v r → r ∈ U) →
      {x | (Sum.elim f rest x).isSome = true}.ncard =
        {a | (f a).isSome = true}.ncard + {b | (rest b).isSome = true}.ncard := by
    intro f v hf hv
    have hfin := hf.finite_slots hv
    have hset : {x | (Sum.elim f rest x).isSome = true} =
        Sum.inl '' {a | (f a).isSome = true} ∪ Sum.inr '' {b | (rest b).isSome = true} := by
      ext x
      cases x with
      | inl a => simp
      | inr b => simp
    rw [hset] at hfin ⊢
    rw [Set.ncard_union_eq Set.disjoint_image_inl_image_inr (hfin.subset Set.subset_union_left)
      (hfin.subset Set.subset_union_right), Set.ncard_image_of_injective _ Sum.inl_injective,
      Set.ncard_image_of_injective _ Sum.inr_injective]
  have h1 := h.card hL hsub hu
  have h2 := h'.card hL' hsub' hu'
  rw [hsplit h fun r hr => ((hu r).mp hr).1] at h1
  rw [hsplit h' fun r hr => ((hu' r).mp hr).1] at h2
  omega

end Owns

end Ledger
