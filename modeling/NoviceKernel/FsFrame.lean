import NoviceKernel.FsAlloc

/-! # What operations on an inode leave alone

    Reading, writing and truncating an inode changes blocks, and of the inode
    table only the size and the addresses of that inode's entry.  This holds
    whatever is on the disk: nothing is assumed about the blocks or about the
    entry. -/

namespace NoviceKernel.FS

open Hoare Function

/-- Of the inode table only the entry `ip` has changed, and of it only the size
    and the addresses. -/
structure Touched (ip : Fin NINODE) (s s' : Fs) : Prop where
  entry : ∃ din, s'.itable = Function.update s.itable ip { s.itable ip with din := din } ∧
    din.attr = (s.itable ip).din.attr

namespace Touched

variable {ip : Fin NINODE} {s s' s'' : Fs}

theorem of_itable (h : s'.itable = s.itable) : Touched ip s s' :=
  ⟨(s.itable ip).din, by rw [h, update_eq_self], rfl⟩

theorem refl (ip : Fin NINODE) (s : Fs) : Touched ip s s := of_itable rfl

theorem trans (h : Touched ip s s') (h' : Touched ip s' s'') : Touched ip s s'' := by
  obtain ⟨din, hit, hattr⟩ := h.entry
  obtain ⟨din', hit', hattr'⟩ := h'.entry
  refine ⟨din', ?_, ?_⟩
  · rw [hit', hit, update_self, update_idem]
  · rw [hattr', hit, update_self]
    exact hattr

end Touched

/-- An operation that touches only the entry `ip`, from every state. -/
def Touches {α : Type} (ip : Fin NINODE) (x : FsM α) : Prop :=
  ∀ s, wp x (fun _ s' => Touched ip s s') (fun _ _ => True) s

namespace Touches

variable {α β : Type} {ip : Fin NINODE} {x : FsM α} {f : α → FsM β}

theorem bind (hx : Touches ip x) (hf : ∀ a, Touches ip (f a)) : Touches ip (x >>= f) := by
  intro s
  refine (hx s).seq ?_
  intro a s' hs'
  exact (hf a s').post fun _ _ h => hs'.trans h

theorem pure (a : α) : Touches ip (pure a) := fun s => .refl ip s

theorem throw (e : Stop) : Touches ip (throw e : FsM α) := fun _ => trivial

theorem get : Touches ip (get : FsM Fs) := fun s => .refl ip s

theorem bread (b : Nat) : Touches ip (bread b) := fun s => .refl ip s

theorem writeBlock (b : Nat) (d : Block) : Touches ip (writeBlock b d) := fun _ => .of_itable rfl

theorem ite {c : Prop} [Decidable c] {y : FsM α} (hx : Touches ip x) (hy : Touches ip y) :
    Touches ip (if c then x else y) := by
  split
  · exact hx
  · exact hy

/-- A change of the entry that keeps the fields. -/
theorem modifyDin {g : Dinode → Dinode} (hg : ∀ x, (g x).attr = x.attr) :
    Touches ip (modifyDin ip g) :=
  fun s => ⟨g (s.itable ip).din, rfl, hg _⟩

theorem setAddr (k : Fin NADDR) (b : Nat) : Touches ip (setAddr ip k b) := modifyDin fun _ => rfl

end Touches

section Functions

variable {sb : Superblock} {ip : Fin NINODE} {c : Nat} {cp : Nat → Nat → Bool} {js : List Nat}

theorem balloc_loop_touches {n b : Nat} : Touches ip (balloc_loop sb n b) := by
  induction n generalizing b with
  | zero => exact .throw _
  | succ n ih =>
    refine .ite (.bind (.bread _) fun d => ?_) (.throw _)
    split
    · exact .bind (.writeBlock _ _) fun _ => .bind (.writeBlock _ _) fun _ => .pure _
    · exact ih

theorem balloc_touches : Touches ip (balloc sb) := balloc_loop_touches

theorem bfree_touches {b : Nat} : Touches ip (bfree sb b) :=
  .bind (.bread _) fun _ => .ite (.writeBlock _ _) (.throw _)

theorem iupdate_touches : Touches ip (iupdate sb ip) :=
  .bind .get fun _ => .bind (.bread _) fun _ => .writeBlock _ _

theorem rootEntry_touches {k : Fin NADDR} : Touches ip (rootEntry sb ip k) :=
  .bind .get fun _ => .ite (.bind balloc_touches fun _ => .bind (.setAddr _ _) fun _ => .pure _)
  (.pure _)

theorem blockEntry_touches {c j : Nat} : Touches ip (blockEntry sb c j) :=
  .bind (.bread _) fun _ => .ite (.bind balloc_touches fun _ => .bind (.bread _) fun _ =>
    .bind (.writeBlock _ _) fun _ => .pure _) (.pure _)

theorem bmap_touches {bn : Nat} : Touches ip (bmap sb ip bn) := by
  unfold bmap
  split
  · exact rootEntry_touches
  · dsimp only
    split
    · exact .bind rootEntry_touches fun _ => blockEntry_touches
    · split
      · exact .bind rootEntry_touches fun _ => .bind blockEntry_touches fun _ => blockEntry_touches
      · exact .throw _

theorem freeDirect_touches {ks : List (Fin NADDR)} : Touches ip (freeDirect sb ip ks) := by
  induction ks with
  | nil => exact .pure _
  | cons k ks ih =>
    exact .bind .get fun _ =>
      .ite (.bind bfree_touches fun _ => .bind (.setAddr _ _) fun _ => ih) ih

theorem freeEntries_touches : Touches ip (freeEntries sb c js) := by
  induction js with
  | nil => exact .pure _
  | cons j js ih => exact .bind (.bread _) fun _ => .ite (.bind bfree_touches fun _ => ih) ih

theorem freeSecond_touches : Touches ip (freeSecond sb c js) := by
  induction js with
  | nil => exact .pure _
  | cons j js ih =>
    exact .bind (.bread _) fun _ =>
      .ite (.bind freeEntries_touches fun _ => .bind bfree_touches fun _ => ih) ih

theorem freeIndirect_touches : Touches ip (freeIndirect sb ip) :=
  .bind .get fun _ =>
    .ite (.bind freeEntries_touches fun _ => .bind bfree_touches fun _ => .setAddr _ _) (.pure _)

theorem freeDouble_touches : Touches ip (freeDouble sb ip) :=
  .bind .get fun _ =>
    .ite (.bind freeSecond_touches fun _ => .bind bfree_touches fun _ => .setAddr _ _) (.pure _)

theorem itrunc_touches : Touches ip (itrunc sb ip) :=
  .bind freeDirect_touches fun _ => .bind freeIndirect_touches fun _ =>
      .bind freeDouble_touches fun _ =>
    .bind (.modifyDin fun _ => rfl) fun _ => iupdate_touches

theorem writei_loop_touches {cp : Copyin} {n k tot off src : Nat} :
    Touches ip (writei_loop sb cp ip n k tot off src) := by
  induction k generalizing tot off src with
  | zero => exact .pure _
  | succ k ih =>
    exact .ite (.bind bmap_touches fun _ => .bind (.bread _) fun _ => .bind (.writeBlock _ _)
        fun _ =>
      .ite ih (.pure _)) (.pure _)

theorem writei_touches {cp : Copyin} {src off n : Nat} : Touches ip (writei sb cp ip src off n) :=
  .bind .get fun _ => .ite (.pure _) (.ite (.pure _) (.bind writei_loop_touches fun _ =>
    .bind (.modifyDin fun _ => rfl) fun _ => .bind iupdate_touches fun _ => .pure _))

theorem readi_loop_touches {n k tot off dst : Nat} {out : List UInt8} :
    Touches ip (readi_loop sb cp ip n k tot off dst out) := by
  induction k generalizing tot off dst out with
  | zero => exact .pure _
  | succ k ih =>
    exact .ite (.bind bmap_touches fun _ => .bind (.bread _) fun _ => .ite ih (.pure _)) (.pure _)

theorem readi_touches {dst off n : Nat} : Touches ip (readi sb cp ip dst off n) := by
  refine .bind .get fun s => .ite (.pure _) (.bind readi_loop_touches fun b => ?_)
  obtain ⟨tot, out⟩ := b
  cases tot with
  | none => exact .pure _
  | some tot => exact .pure _

end Functions

end NoviceKernel.FS
