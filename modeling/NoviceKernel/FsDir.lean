import Mathlib.Data.List.GetD
import NoviceKernel.FsContents
import NoviceKernel.FsPath

/-! # Directories as bytes

    A directory is an array of entries of `Dirent.SIZE` bytes.  `entryAt` is the
    entry at an offset; writing one entry changes that entry and no other. -/

namespace NoviceKernel.FS

open List Nat

/-- The entry in the bytes `data` of a directory at offset `off`. -/
def entryAt (data : Bytes) (off : Nat) : Dirent := Dirent.load ((data.drop off).take Dirent.SIZE)

section

variable {c d : Bytes} {off k : Nat} {bs : Bytes}

/-! ## Overwriting -/

theorem length_overwrite (h : off ≤ c.length) :
    (overwrite c off bs).length = max (off + bs.length) c.length := by
  unfold overwrite
  simp only [length_append, length_take, length_drop]
  omega

theorem getD_overwrite (h : off ≤ c.length) :
    (overwrite c off bs).getD k 0 =
      if off ≤ k ∧ k < off + bs.length then bs.getD (k - off) 0 else c.getD k 0 := by
  have hlen : (c.take off).length = off := by rw [length_take, min_eq_left h]
  unfold overwrite
  by_cases hlo : k < off
  · rw [if_neg (by omega), append_assoc, getD_append _ _ _ _ (by omega)]
    simp only [getD_eq_getElem?_getD]
    rw [getElem?_take_of_lt hlo]
  · by_cases hhi : k < off + bs.length
    · rw [if_pos ⟨by omega, hhi⟩, getD_append _ _ _ _ (by rw [length_append]; omega),
        getD_append_right _ _ _ _ (by omega), hlen]
    · rw [if_neg (by omega), getD_append_right _ _ _ _ (by rw [length_append]; omega),
        length_append, hlen]
      simp only [getD_eq_getElem?_getD]
      rw [getElem?_drop]
      congr 3
      omega

/-! ## Entries -/

theorem Dirent.load_congr (h : ∀ i, i < Dirent.SIZE → c.getD i 0 = d.getD i 0) :
    Dirent.load c = Dirent.load d := by
  unfold Dirent.load
  rw [h 0 (by decide), h 1 (by decide)]
  congr 1
  refine map_congr_left fun i hi => h _ ?_
  rw [mem_range] at hi
  unfold Dirent.SIZE
  omega

theorem getD_slice {i : Nat} (hi : i < Dirent.SIZE) :
    ((c.drop off).take Dirent.SIZE).getD i 0 = c.getD (off + i) 0 := by
  simp only [getD_eq_getElem?_getD]
  rw [getElem?_take_of_lt hi, getElem?_drop]

/-- The entry that is written. -/
theorem entryAt_overwrite_self (h : off ≤ c.length) (hbs : bs.length = Dirent.SIZE) :
    entryAt (overwrite c off bs) off = Dirent.load bs := by
  refine Dirent.load_congr fun i hi => ?_
  rw [getD_slice hi, getD_overwrite h, if_pos ⟨by omega, by omega⟩]
  congr 1
  omega

/-- The entries that are not. -/
theorem entryAt_overwrite_of_ne (h : off ≤ c.length) (hbs : bs.length = Dirent.SIZE)
    (hoff : Dirent.SIZE ∣ off) (hk : Dirent.SIZE ∣ k) (hne : k ≠ off) :
    entryAt (overwrite c off bs) k = entryAt c k := by
  refine Dirent.load_congr fun i hi => ?_
  obtain ⟨x, rfl⟩ := hoff
  obtain ⟨y, rfl⟩ := hk
  have hxy : x ≠ y := fun e => hne (by rw [e])
  rw [getD_slice hi, getD_slice hi, getD_overwrite h, if_neg ?_]
  rintro ⟨h1, h2⟩
  have h3 : Dirent.SIZE * x < Dirent.SIZE * (y + 1) := by rw [mul_add]; omega
  have h4 : Dirent.SIZE * y < Dirent.SIZE * (x + 1) := by rw [mul_add]; omega
  have := lt_of_mul_lt_mul_left h3
  have := lt_of_mul_lt_mul_left h4
  omega

end

/-! ## Inode numbers -/

/-- Every entry of the directory has an inode number of the disk. -/
def Named (sb : Superblock) (data : Bytes) : Prop :=
  ∀ off, Dirent.SIZE ∣ off → off + Dirent.SIZE ≤ data.length → (entryAt data off).inum < sb.ninodes

theorem Named.nil (sb : Superblock) : Named sb [] := by
  intro off _ h
  have : 0 < Dirent.SIZE := by decide
  rw [length_nil] at h
  omega

theorem Named.overwrite {sb : Superblock} {c bs : Bytes} {off : Nat} (hc : Named sb c)
    (h : off ≤ c.length) (hbs : bs.length = Dirent.SIZE) (hoff : Dirent.SIZE ∣ off)
    (hi : (Dirent.load bs).inum < sb.ninodes) : Named sb (FS.overwrite c off bs) := by
  intro k hk hle
  by_cases he : k = off
  · rw [he, entryAt_overwrite_self h hbs]
    exact hi
  · rw [entryAt_overwrite_of_ne h hbs hoff hk he]
    refine hc k hk ?_
    rw [length_overwrite h, hbs] at hle
    -- an entry other than the one written ends before it or lies in the old bytes
    obtain ⟨x, rfl⟩ := hoff
    obtain ⟨y, rfl⟩ := hk
    have hxy : y ≠ x := fun e => he (by rw [e])
    rcases lt_or_gt_of_ne hxy with hlt | hgt
    · have : Dirent.SIZE * (y + 1) ≤ Dirent.SIZE * x := mul_le_mul_left _ hlt
      rw [mul_add] at this
      omega
    · have : Dirent.SIZE * (x + 1) ≤ Dirent.SIZE * y := mul_le_mul_left _ hgt
      rw [mul_add] at this
      omega

end NoviceKernel.FS
