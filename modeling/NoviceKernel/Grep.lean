import Mathlib.Data.List.Basic
import NoviceKernel.Lib.Bytes
import NoviceKernel.Memmove

/-! # `grep` (`grep.c`)

    1. **The matcher**: `match_`, `matchhere` and `matchstar` over strings; a string
       is the list of its characters up to the NUL.
    2. **Patterns**: what a pattern means, and that the matcher decides it.
    3. **The buffer**: the loops of `grep` over the 1024 bytes of `buf`; `none` says
       that an index is outside of it.
    4. **Lines**: what is written does not depend on how the input arrives. -/

namespace NoviceKernel.Grep

open List Function
open Bytes (ch)

/-! ## 1. The matcher -/

mutual

/-- `matchhere(re, text)`: search for re at beginning of text. -/
def matchhere (re text : List UInt8) : Bool :=
  match re with
  | [] => true
  | c :: re =>
    if re.head? = some (ch '*') then matchstar c re.tail text
    else if c = ch '$' ∧ re = [] then text = []
    else if text ≠ [] ∧ (c = ch '.' ∨ text.head? = some c) then matchhere re text.tail
    else false
termination_by (re.length, 0, 0)

/-- `matchstar(c, re, text)`: search for c*re at beginning of text. -/
def matchstar (c : UInt8) (re : List UInt8) : List UInt8 → Bool
  | [] => matchhere re []
  | t :: text => matchhere re (t :: text) || (t = c || c = ch '.') && matchstar c re text
termination_by text => (re.length, 1, text.length)

end

/-- The loop of `match`; it looks at the empty string too. -/
def matchLoop (re : List UInt8) : List UInt8 → Bool
  | [] => matchhere re []
  | t :: text => matchhere re (t :: text) || matchLoop re text

/-- `match(re, text)`. -/
def match_ (re text : List UInt8) : Bool :=
  if re.head? = some (ch '^') then matchhere re.tail text else matchLoop re text

/-! ## 2. Patterns -/

inductive Item where
  /-- `c*`. -/
  | star (c : UInt8)
  | one (c : UInt8)
  /-- `$` at the end of the pattern. -/
  | atEnd

/-- The items of a pattern behind its `^`. -/
def parse : List UInt8 → List Item
  | [] => []
  | [c] => [if c = ch '$' then .atEnd else .one c]
  | c :: d :: re => if d = ch '*' then .star c :: parse re else .one c :: parse (d :: re)

/-- `.` stands for any character, every other one for itself. -/
def Stands (c t : UInt8) : Prop := c = ch '.' ∨ c = t

/-- An item matches the text up to `rest`. -/
def Item.Takes : Item → List UInt8 → List UInt8 → Prop
  | .star c, text, rest => ∃ ts, text = ts ++ rest ∧ ∀ t ∈ ts, Stands c t
  | .one c, text, rest => ∃ t, text = t :: rest ∧ Stands c t
  | .atEnd, text, rest => text = [] ∧ rest = []

/-- The items match at the start of the text. -/
def Here : List Item → List UInt8 → Prop
  | [], _ => True
  | i :: is, text => ∃ rest, i.Takes text rest ∧ Here is rest

/-- **The meaning of a pattern.** -/
def Matches (re text : List UInt8) : Prop :=
  if re.head? = some (ch '^') then Here (parse re.tail) text else ∃ s, s <:+ text ∧
    Here (parse re) s

variable {re text : List UInt8} {is : List Item} {c : UInt8} {t : UInt8}

/-- One character of the text, then the rest. -/
theorem here_star_cons :
    Here (.star c :: is) (t :: text) ↔
      Here is (t :: text) ∨ Stands c t ∧ Here (.star c :: is) text := by
  constructor
  · rintro ⟨rest, ⟨ts, heq, hall⟩, hrest⟩
    cases ts with
    | nil =>
      left
      rw [heq]
      exact hrest
    | cons x ts =>
      obtain ⟨rfl, rfl⟩ := cons.inj heq
      exact .inr ⟨hall t mem_cons_self, rest, ⟨ts, rfl, fun y hy => hall y (mem_cons_of_mem _ hy)⟩,
        hrest⟩
  · rintro (h | ⟨hc, rest, ⟨ts, rfl, hall⟩, hrest⟩)
    · exact ⟨t :: text, ⟨[], rfl, by simp⟩, h⟩
    · exact ⟨rest, ⟨t :: ts, rfl, forall_mem_cons.mpr ⟨hc, hall⟩⟩, hrest⟩

theorem matchstar_iff (h : ∀ text, matchhere re text = true ↔ Here is text) (text : List UInt8) :
    matchstar c re text = true ↔ Here (.star c :: is) text := by
  induction text with
  | nil =>
    rw [matchstar, h]
    constructor
    · intro hnil
      exact ⟨[], ⟨[], rfl, by simp⟩, hnil⟩
    · rintro ⟨rest, ⟨ts, heq, -⟩, hrest⟩
      rwa [(append_eq_nil_iff.mp heq.symm).2] at hrest
  | cons t text ih =>
    rw [matchstar, here_star_cons, Bool.or_eq_true, Bool.and_eq_true, ih, h]
    simp only [Stands, Bool.or_eq_true, decide_eq_true_eq, or_comm, @eq_comm _ t]

theorem here_one_cons : Here (.one c :: is) (t :: text) ↔ Stands c t ∧ Here is text := by
  constructor
  · rintro ⟨rest, ⟨t, heq, hc⟩, hrest⟩
    obtain ⟨rfl, rfl⟩ := cons.inj heq
    exact ⟨hc, hrest⟩
  · rintro ⟨hc, hrest⟩
    exact ⟨text, ⟨t, rfl, hc⟩, hrest⟩

/-- A character that is not followed by `*` and no `$` at the end. -/
theorem matchhere_one (hstar : re.head? ≠ some (ch '*')) (hend : ¬ (c = ch '$' ∧ re = []))
    (h : ∀ text, matchhere re text = true ↔ Here is text) (text : List UInt8) :
    matchhere (c :: re) text = true ↔ Here (.one c :: is) text := by
  rw [matchhere, if_neg hstar, if_neg hend]
  cases text with
  | nil =>
    refine iff_of_false (by simp) ?_
    rintro ⟨rest, ⟨t, heq, -⟩, -⟩
    cases heq
  | cons t text =>
    rw [here_one_cons, ← h]
    simp [Stands, @eq_comm _ t]

theorem matchhere_iff (re text : List UInt8) : matchhere re text = true ↔ Here (parse re) text := by
  induction re using parse.induct generalizing text with
  | case1 => simp [matchhere, parse, Here]
  | case2 c =>
    by_cases hc : c = ch '$'
    · rw [matchhere, parse, if_neg (by simp), if_pos ⟨hc, rfl⟩, if_pos hc]
      simp [Here, Item.Takes]
    · rw [parse, if_neg hc]
      exact matchhere_one (by simp) (fun h => hc h.1) (by simp [matchhere, Here]) text
  | case3 c re ih =>
    rw [matchhere, if_pos head?_cons, parse, if_pos rfl]
    exact matchstar_iff ih text
  | case4 c d re hd ih =>
    rw [parse, if_neg hd]
    exact matchhere_one (by simpa using hd) (by simp) ih text

/-- **The matcher is sound and complete.** -/
theorem match_iff (re text : List UInt8) : match_ re text = true ↔ Matches re text := by
  unfold match_ Matches
  split
  · exact matchhere_iff re.tail text
  · induction text with
    | nil =>
      rw [matchLoop, matchhere_iff]
      simp
    | cons t text ih =>
      rw [matchLoop, Bool.or_eq_true, matchhere_iff, ih]
      constructor
      · rintro (h | ⟨s, hs, h⟩)
        · exact ⟨t :: text, suffix_rfl, h⟩
        · exact ⟨s, hs.trans (suffix_cons t text), h⟩
      · rintro ⟨s, hs, h⟩
        rcases suffix_cons_iff.mp hs with rfl | hs
        · exact .inl h
        · exact .inr ⟨s, hs, h⟩

/-! ## 3. The buffer -/

/-- `sizeof(buf)`. -/
def SIZE : Nat := 1024

def nl : UInt8 := ch '\n'

/-- `strchr(p, c)`, with `k` bytes left in the buffer. -/
def strchr (b : Nat → UInt8) (c : UInt8) : Nat → Nat → Option (Option Nat)
  | 0, _ => none
  | k + 1, p =>
    if b p = 0 then some none
    else if b p = c then some (some p)
    else strchr b c k (p + 1)

/-- The string at `p`, with `k` bytes left in the buffer. -/
def string (b : Nat → UInt8) : Nat → Nat → Option (List UInt8)
  | 0, _ => none
  | k + 1, p => if b p = 0 then some [] else (string b k (p + 1)).map (b p :: ·)

/-- `n` bytes from `p` on. -/
def bytes (b : Nat → UInt8) (p : Nat) : Nat → List UInt8
  | 0 => []
  | n + 1 => b p :: bytes b (p + 1) n

/-- The inner loop, for at most `k` lines; `out` is what was written. -/
def lines (pattern : List UInt8) : Nat → (Nat → UInt8) → Nat → List UInt8 →
    Option ((Nat → UInt8) × Nat × List UInt8)
  | 0, _, _, _ => none
  | k + 1, b, p, out =>
    match strchr b nl (SIZE - p) p with
    | none => none
    | some none => some (b, p, out)
    | some (some q) =>
      let b := update b q 0
      match string b (SIZE - p) p with
      | none => none
      | some text =>
        if match_ pattern text then
          let b := update b q nl
          lines pattern k b (q + 1) (out ++ bytes b p (q + 1 - p))
        else lines pattern k b (q + 1) out

/-- The bytes `w` arrive at `m`. -/
def store (b : Nat → UInt8) : Nat → List UInt8 → Nat → UInt8
  | _, [] => b
  | m, x :: w => store (update b m x) (m + 1) w

/-- `read` of at most `n` bytes: some of those that are left, at least one if
    there are any; `more` says how many. -/
def readSize (more n left : Nat) : Nat := min (min n left) (more + 1)

/-- `grep(pattern, fd)`, at most `k` reads; `input` is left of the file, and `mores`
    says how it arrives. -/
def grep (pattern : List UInt8) (mores : Nat → Nat) :
    Nat → (Nat → UInt8) → Nat → List UInt8 → List UInt8 → Option (List UInt8)
  | 0, _, _, _, _ => none
  | k + 1, b, m, input, out =>
    let n := readSize (mores k) (SIZE - m - 1) input.length
    if n = 0 then some out
    else if SIZE ≤ m + n then none
    else
      let b := update (store b m (input.take n)) (m + n) 0
      match lines pattern SIZE b 0 out with
      | none => none
      | some (b, p, out) =>
        if 0 < m + n then
          let m := m + n - p
          if SIZE < p + m then none
          else grep pattern mores k (Memmove.umemmove 0 p m b) m (input.drop n) out
        else grep pattern mores k b (m + n) (input.drop n) out

/-! ## 4. Lines -/

/-- The lines of `cur ++ w` that end with a newline, and what follows the last one;
    there is none in `cur`. -/
def split : List UInt8 → List UInt8 → List (List UInt8) × List UInt8
  | cur, [] => ([], cur)
  | cur, x :: w => if x = nl then (cur :: (split [] w).1, (split [] w).2) else split (cur ++ [x]) w

/-- The lines that match, each with its newline. -/
def matching (pattern : List UInt8) (ls : List (List UInt8)) : List UInt8 :=
  (ls.filter fun l => match_ pattern l).flatMap (· ++ [nl])

/-- The bytes `w` are in the buffer from `p` on. -/
def Cells (b : Nat → UInt8) : Nat → List UInt8 → Prop
  | _, [] => True
  | p, x :: w => b p = x ∧ Cells b (p + 1) w

variable {b b' : Nat → UInt8} {p q k m : Nat} {u v w cur out : List UInt8} {input : List UInt8}
  {x : UInt8}

theorem cells_append : Cells b p (u ++ v) ↔ Cells b p u ∧ Cells b (p + u.length) v := by
  induction u generalizing p with
  | nil => simp [Cells]
  | cons x u ih =>
    rw [cons_append, Cells, Cells, ih, length_cons, and_assoc, Nat.add_right_comm, Nat.add_assoc]

/-- The bytes `w`, possibly at another place. -/
theorem Cells.transfer (h : Cells b p w) (hb : ∀ i, i < w.length → b' (q + i) = b (p + i)) :
    Cells b' q w := by
  induction w generalizing p q with
  | nil => trivial
  | cons x w ih =>
    refine ⟨(hb 0 (Nat.succ_pos _)).trans h.1, ih h.2 fun i hi => ?_⟩
    have hnext := hb (i + 1) (Nat.succ_lt_succ hi)
    rwa [Nat.add_comm i, ← Nat.add_assoc, ← Nat.add_assoc] at hnext

theorem Cells.update (h : Cells b p w) (hq : q < p ∨ p + w.length ≤ q) : Cells (update b q x) p w :=
  h.transfer fun i hi => update_of_ne (by omega) _ _

theorem Cells.bytes (h : Cells b p w) : bytes b p w.length = w := by
  induction w generalizing p with
  | nil => rfl
  | cons x w ih => rw [length_cons, Grep.bytes, h.1, ih h.2]

theorem cells_store : Cells (store b m w) m w ∧ ∀ a, a < m → store b m w a = b a := by
  induction w generalizing b m with
  | nil => exact ⟨trivial, fun a _ => rfl⟩
  | cons x w ih =>
    obtain ⟨hw, hkeep⟩ := @ih (Function.update b m x) (m + 1)
    refine ⟨⟨?_, hw⟩, fun a ha => ?_⟩
    · rw [store, hkeep m (Nat.lt_succ_self m), update_self]
    · rw [store, hkeep a (Nat.lt_succ_of_lt ha), update_of_ne (Nat.ne_of_lt ha)]

/-- `strchr` passes over what is neither the end nor a newline. -/
theorem strchr_skip (h : Cells b p u) (h0 : 0 ∉ u) (hu : nl ∉ u) :
    strchr b nl (u.length + k) p = strchr b nl k (p + u.length) := by
  induction u generalizing p with
  | nil => simp
  | cons x u ih =>
    have hx0 : x ≠ 0 := fun hx => h0 (hx ▸ mem_cons_self)
    have hxnl : x ≠ nl := fun hx => hu (hx ▸ mem_cons_self)
    have hrest := ih h.2 (mt (mem_cons_of_mem x) h0) (mt (mem_cons_of_mem x) hu)
    rw [length_cons, Nat.add_right_comm, strchr, h.1, if_neg hx0, if_neg hxnl, hrest,
      Nat.add_right_comm, Nat.add_assoc]

theorem string_eq (h : Cells b p (u ++ [0])) (h0 : 0 ∉ u) :
    string b (u.length + 1 + k) p = some u := by
  induction u generalizing p with
  | nil =>
    rw [length_nil, Nat.add_comm]
    exact if_pos h.1
  | cons x u ih =>
    have hp : b p = x := h.1
    have hx0 : x ≠ 0 := fun hx => h0 (hx ▸ mem_cons_self)
    rw [length_cons, Nat.add_right_comm, string, hp, if_neg hx0, ih h.2 (mt (mem_cons_of_mem x) h0),
      Option.map_some]

theorem matching_append (pattern : List UInt8) (ls ls' : List (List UInt8)) :
    matching pattern (ls ++ ls') = matching pattern ls ++ matching pattern ls' := by
  rw [matching, filter_append, flatMap_append, ← matching, ← matching]

theorem split_append : split cur (u ++ v) =
    ((split cur u).1 ++ (split (split cur u).2 v).1, (split (split cur u).2 v).2) := by
  induction u generalizing cur with
  | nil => rfl
  | cons x u ih =>
    rw [cons_append, split, split]
    split
    · rw [ih, cons_append]
    · exact ih

theorem split_of_notMem (hu : nl ∉ u) : split cur u = ([], cur ++ u) := by
  induction u generalizing cur with
  | nil => rw [split, append_nil]
  | cons x u ih =>
    simp only [mem_cons, not_or] at hu
    rw [split, if_neg (Ne.symm hu.1), ih hu.2, append_assoc, singleton_append]

theorem mem_split_tail (h : x ∈ (split cur w).2) : x ∈ cur ∨ x ∈ w ∧ x ≠ nl := by
  induction w generalizing cur with
  | nil => exact .inl h
  | cons y w ih =>
    rw [split] at h
    split at h
    · exact .inr ((ih h).resolve_left not_mem_nil |>.imp_left (mem_cons_of_mem y))
    · next hy =>
      rcases ih h with hcur | hw
      · rcases mem_append.mp hcur with hcur | hx
        · exact .inl hcur
        · rw [mem_singleton.mp hx]
          exact .inr ⟨mem_cons_self, hy⟩
      · exact .inr (hw.imp_left (mem_cons_of_mem y))

/-- One line: whether it matches or not, its newline is passed and what follows is
    as it was. -/
theorem lines_newline (pattern out : List UInt8) (h : Cells b p (u ++ nl :: v)) (h0 : 0 ∉ u)
    (hu : nl ∉ u) (hsize : p + u.length < SIZE) :
    ∃ x, lines pattern (k + 1) b p out =
        lines pattern k (update b (p + u.length) x) (p + u.length + 1)
          (out ++ matching pattern [u]) := by
  obtain ⟨hcu, hnl, -⟩ := cells_append.mp h
  have hstr : strchr b nl (SIZE - p) p = some (some (p + u.length)) := by
    rw [show SIZE - p = u.length + (SIZE - p - u.length - 1 + 1)
      by omega, strchr_skip hcu h0 hu, strchr, hnl, if_neg (by decide), if_pos rfl]
  have htext : string (update b (p + u.length) 0) (SIZE - p) p = some u := by
    rw [show SIZE - p = u.length + 1 + (SIZE - p - u.length - 1) by omega]
    exact string_eq (cells_append.mpr ⟨hcu.update (.inr (Nat.le_refl _)), update_self .., trivial⟩)
      h0
  simp only [lines, hstr, htext]
  by_cases hm : match_ pattern u
  · -- the newline is put back before the line is written
    have hline : Cells b p (u ++ [nl]) := cells_append.mpr ⟨hcu, hnl, trivial⟩
    have hbytes : bytes b p (p + u.length + 1 - p) = u ++ [nl] := by
      rw [← hline.bytes, length_append, length_singleton, Nat.add_assoc, Nat.add_sub_cancel_left]
    refine ⟨nl, ?_⟩
    rw [if_pos hm, update_idem, update_eq_self_iff.mpr hnl.symm, hbytes, matching,
      filter_cons_of_pos hm]
    simp
  · refine ⟨0, ?_⟩
    rw [if_neg hm, matching, filter_cons_of_neg hm]
    simp

/-- The inner loop: the lines that match are written, and `p` stands behind the
    last newline. -/
theorem lines_eq (pattern out : List UInt8) (h : Cells b p (w ++ [0])) (h0 : 0 ∉ w)
    (hk : w.length < k) (hsize : p + w.length < SIZE) :
    ∃ b' u, w = u ++ (split [] w).2 ∧ Cells b' (p + u.length) (split [] w).2 ∧
      lines pattern k b p out =
        some (b', p + u.length, out ++ matching pattern (split [] w).1) := by
  -- by induction on the lines still allowed; every line leaves a shorter rest
  induction k generalizing b p w out with
  | zero => cases hk
  | succ k ih =>
    by_cases hmem : nl ∈ w
    · obtain ⟨u, v, rfl, hu⟩ := eq_append_cons_of_mem hmem
      simp only [append_assoc, cons_append, mem_append, mem_cons, not_or, length_append,
        length_cons] at h h0 hk hsize
      obtain ⟨x, hline⟩ := lines_newline (k := k) pattern out h h0.1 hu (by omega)
      have hrest : Cells (update b (p + u.length) x) (p + u.length + 1) (v ++ [0]) :=
        (cells_append.mp h).2.2.update (.inl (Nat.lt_succ_self _))
      obtain ⟨b', w, hw, hcells, heq⟩ :=
        ih (out ++ matching pattern [u]) hrest h0.2.2 (by omega) (by omega)
      have hsplit : split [] (u ++ nl :: v) = (u :: (split [] v).1, (split [] v).2) := by
        rw [split_append, split_of_notMem hu, split, if_pos rfl, nil_append, nil_append]
      have hpos : p + u.length + 1 + w.length = p + (u ++ nl :: w).length := by
        rw [length_append, length_cons]
        omega
      refine ⟨b', u ++ nl :: w,
        by rw [hsplit, append_assoc, cons_append, ← hw], by rwa [hsplit, ← hpos], ?_⟩
      rw [hline, heq, hpos, hsplit, append_assoc, ← matching_append, singleton_append]
    · rw [split_of_notMem hmem]
      refine ⟨b, [], rfl, (cells_append.mp h).1, ?_⟩
      have hstr : strchr b nl (SIZE - p) p = some none := by
        obtain ⟨hcw, hend, -⟩ := cells_append.mp h
        rw [show SIZE - p = w.length + (SIZE - p - w.length - 1 + 1)
          by omega, strchr_skip hcw h0 hmem, strchr, if_pos hend]
      rw [lines, hstr]
      simp [matching]

/-- Every line that ends with a newline leaves room for it in the buffer. -/
def Fits (cur input : List UInt8) : Prop := ∀ l ∈ (split cur input).1, l.length ≤ 1022

/-- Where the buffer is full, no newline is left. -/
theorem Fits.split_of_full (h : Fits cur input) (hcur : 1022 < cur.length) :
    (split cur input).1 = [] := by
  induction input generalizing cur with
  | nil => rfl
  | cons x input ih =>
    unfold Fits at h
    rw [split] at h ⊢
    split
    · next hx =>
      rw [if_pos hx] at h
      exact absurd (h cur mem_cons_self) (Nat.not_le_of_lt hcur)
    · next hx =>
      rw [if_neg hx] at h
      refine ih h ?_
      rw [length_append]
      omega

/-- What one read adds to the buffer. -/
theorem cells_read (h : Cells b 0 cur) :
    Cells (update (store b cur.length w) (cur.length + w.length) 0) 0 (cur ++ w ++ [0]) := by
  obtain ⟨hw, hkeep⟩ := @cells_store b cur.length w
  have hcur : Cells (store b cur.length w) 0 cur := h.transfer fun i hi => hkeep _ (by omega)
  refine cells_append.mpr ⟨Cells.update (cells_append.mpr ⟨hcur, ?_⟩) (.inr (by simp)), ?_, trivial⟩
  · rwa [Nat.zero_add]
  · rw [length_append, Nat.zero_add, update_self]

/-- One read: the lines it completes are dealt with, and the unfinished one is
    moved to the start of the buffer. -/
theorem grep_read (pattern out : List UInt8) (mores : Nat → Nat) {n : Nat} (hc : Cells b 0 cur)
    (hnl : nl ∉ cur) (h0 : 0 ∉ cur ++ input.take n)
    (hn : readSize (mores k) (SIZE - cur.length - 1) input.length = n) (hpos : 0 < n)
    (hlen : (input.take n).length = n) (hsize : cur.length + n < SIZE) :
    ∃ b', Cells b' 0 (split cur (input.take n)).2 ∧ (split cur (input.take n)).2.length < SIZE ∧
      grep pattern mores (k + 1) b cur.length input out =
        grep pattern mores k b' (split cur (input.take n)).2.length (input.drop n)
          (out ++ matching pattern (split cur (input.take n)).1) := by
  have hbuf := cells_read (w := input.take n) hc
  have hfit : (cur ++ input.take n).length < SIZE := by rwa [length_append, hlen]
  obtain ⟨b', u, hu, htail, hlines⟩ := lines_eq pattern out hbuf h0 hfit (by rwa [Nat.zero_add])
  have hsplit : split [] (cur ++ input.take n) = split cur (input.take n) := by
    rw [split_append, split_of_notMem hnl, nil_append, nil_append]
  rw [hsplit] at hu htail hlines
  rw [hlen] at hlines
  have hm : cur.length + n = u.length + (split cur (input.take n)).2.length := by
    rw [← length_append, ← hu, length_append, hlen]
  generalize (split cur (input.take n)).2 = tail at *
  -- the unfinished line goes to the start of the buffer
  have hmove : Cells (Memmove.umemmove 0 (0 + u.length) tail.length b') 0 tail := by
    unfold SIZE at hsize
    rw [Memmove.umemmove_eq (by omega) (by omega)]
    refine htail.transfer fun i hi => ?_
    rw [Memmove.moved, if_pos (by omega), Nat.sub_zero, Nat.zero_add, Nat.zero_add]
  refine ⟨_, hmove, by omega, ?_⟩
  rw [grep, hn, if_neg (Nat.ne_of_gt hpos), if_neg (Nat.not_le_of_lt hsize)]
  simp only [hlines]
  rw [if_pos (by omega), if_neg (by omega), hm, Nat.zero_add, Nat.add_sub_cancel_left]

/-- The run from a buffer that holds the unfinished line `cur`. -/
theorem grep_from (pattern : List UInt8) (mores : Nat → Nat) (hc : Cells b 0 cur)
    (hsize : cur.length < SIZE) (hnl : nl ∉ cur) (h0 : 0 ∉ cur) (hin : 0 ∉ input)
    (hfits : Fits cur input) (hk : input.length < k) :
    grep pattern mores k b cur.length input out =
      some (out ++ matching pattern (split cur input).1) := by
  induction k generalizing b cur input out with
  | zero => cases hk
  | succ k ih =>
    generalize hn : readSize (mores k) (SIZE - cur.length - 1) input.length = n
    by_cases hn0 : n = 0
    · -- at the end of the input, or with a full buffer
      have hnone : (split cur input).1 = [] := by
        cases input with
        | nil => rfl
        | cons x input =>
          refine hfits.split_of_full ?_
          simp only [readSize, SIZE, length_cons] at hn hsize
          omega
      rw [grep, hn, if_pos hn0, hnone]
      simp [matching]
    have hle : n ≤ input.length ∧ cur.length + n < SIZE := by
      simp only [readSize] at hn
      omega
    have hbuf0 : 0 ∉ cur ++ input.take n := by
      rw [mem_append, not_or]
      exact ⟨h0, mt mem_of_mem_take hin⟩
    obtain ⟨b', hb', hsize', heq⟩ :=
      grep_read pattern out mores hc hnl hbuf0 hn (Nat.pos_of_ne_zero hn0)
      (length_take_of_le hle.1) hle.2
    -- the lines of the input are those of this read and those of the others
    have hall := @split_append (input.take n) (input.drop n) cur
    rw [take_append_drop] at hall
    rw [Fits, hall] at hfits
    rw [heq, hall, matching_append, ← append_assoc]
    refine ih hb' hsize' (fun h => ?_) (fun h => ?_) (mt mem_of_mem_drop hin)
      (fun l hl => hfits l (mem_append_right _ hl)) (by rw [length_drop]; omega)
    · exact (mem_split_tail h).elim hnl fun hx => hx.2 rfl
    · exact (mem_split_tail h).elim h0 fun hx => hin (mem_of_mem_take hx.1)

/-- **What `grep` writes does not depend on how the input arrives**: the lines that
    end with a newline and match, each once and in order, and the buffer is never
    left. -/
theorem grep_arrival (pattern input : List UInt8) (mores : Nat → Nat) (b : Nat → UInt8)
    (h0 : 0 ∉ input) (hfits : Fits [] input) (k : Nat) (hk : input.length < k) :
    grep pattern mores k b 0 input [] = some (matching pattern (split [] input).1) :=
  grep_from pattern mores (show Cells b 0 [] from trivial) (by decide) not_mem_nil not_mem_nil h0
    hfits hk

/-- Two bytes at a time; the last line has no newline. -/
theorem grep_arrival_pieces :
    grep [ch 'b', ch '$'] (fun _ => 1) 9 (fun _ => 0) 0 [ch 'a', ch 'b', nl, ch 'a', nl, ch 'b']
      [] = some (matching [ch 'b', ch '$'] [[ch 'a', ch 'b'], [ch 'a']]) :=
  grep_arrival _ _ _ _ (by decide) (by unfold Fits; decide) 9 (by decide)

end NoviceKernel.Grep
