import Mathlib.Data.List.GetD
import Mathlib.Algebra.Order.Group.Nat
import Mathlib.Tactic.Common
import NoviceKernel.Lib.Bytes

/-! # The parser of the shell (`sh.c`)

    `parsecmd` parses one line by recursive descent over a shared cursor.

    1. **Model**: `gettoken`, `peek` and the parse functions over positions in
       the line.  A function that calls itself takes fuel; `Fail.fuel` says that
       it was not enough.
    2. **Grammar**: the tokens of a line and the derivations, with the tree that
       belongs to each.
    3. **Tokens**: what `gettoken` and `peek` see is the next token.
    4. **Soundness**: what is parsed derives from the grammar, and the fuel
       suffices.
    5. **Completeness**: what derives is parsed.
    6. **The parser accepts exactly its grammar**.
    7. **Strings**: what `nulterminate` makes of the words of the tree.

    `malloc` is taken to succeed: the constructors do not check it. -/

namespace NoviceKernel.Sh

open List Nat
open Bytes (ch)

/-! ## 1. Model -/

def whitespace : List UInt8 := [ch ' ', ch '\t', ch '\r', ch '\n', 11]

def symbols : List UInt8 := [ch '<', ch '|', ch '>', ch '&', ch ';', ch '(', ch ')']

def MAXARGS : Nat := 10

def O_RDONLY : Nat := 0x000
def O_WRONLY : Nat := 0x001
def O_CREATE : Nat := 0x200
def O_TRUNC : Nat := 0x400

/-- Whether `strchr` finds `c`; it does not find the NUL at the end. -/
def strchr (s : List UInt8) (c : UInt8) : Bool := s.contains c

/-- `struct cmd`.  A word is given by the positions of its first character and
    behind its last one (`argv[i]` and `eargv[i]`, `file` and `efile`). -/
inductive Cmd where
  | exec (args : List (Nat × Nat))
  | redir (cmd : Cmd) (file efile mode fd : Nat)
  | pipe (left right : Cmd)
  | list (left right : Cmd)
  | back (cmd : Cmd)
  deriving DecidableEq

/-- `cmd->argv[argc] = q; cmd->eargv[argc] = eq`, where `cmd` is the `EXEC` node
    below the redirections. -/
def Cmd.addArg : Cmd → Nat → Nat → Cmd
  | .exec args, q, eq => .exec (args ++ [(q, eq)])
  | .redir c file efile mode fd, q, eq => .redir (c.addArg q eq) file efile mode fd
  | c, _, _ => c

inductive Fail where
  | panic (msg : String)
  | fuel
  deriving DecidableEq

section Model

-- the characters of the line before the NUL
variable (line : List UInt8)

/-- `*s`. -/
def chr (s : Nat) : UInt8 := line.getD s 0

/-- `while (s < es && p(*s)) s++`, with `n` characters before `es`. -/
def skipWhile (p : UInt8 → Bool) : Nat → Nat → Nat
  | 0, s => s
  | n + 1, s => if p (chr line s) then skipWhile p n (s + 1) else s

def skipSpace (s : Nat) : Nat := skipWhile line (strchr whitespace) (line.length - s) s

def skipWord (s : Nat) : Nat :=
  skipWhile line (fun c => !strchr whitespace c && !strchr symbols c) (line.length - s) s

/-- What `gettoken` returns and stores: the token, `*q`, `*eq` and `*ps`. -/
structure Token where
  tok : UInt8
  q : Nat
  eq : Nat
  s : Nat

/-- The `switch` of `gettoken`: the token at `s` and the position behind it. -/
def scan (s : Nat) : UInt8 × Nat :=
  let c := chr line s
  if c = 0 then (0, s)
  else if strchr [ch '|', ch '(', ch ')', ch ';', ch '&', ch '<'] c then (c, s + 1)
  else if c = ch '>' then
    if chr line (s + 1) = ch '>' then (ch '+', s + 2) else (c, s + 1)
  else (ch 'a', skipWord line s)

def gettoken (s : Nat) : Token :=
  let q := skipSpace line s
  let r := scan line q
  ⟨r.1, q, r.2, skipSpace line r.2⟩

/-- Whether the next character is one of `toks`, and `*ps`. -/
def peek (s : Nat) (toks : List UInt8) : Bool × Nat :=
  let s := skipSpace line s
  (chr line s ≠ 0 && strchr toks (chr line s), s)

def parseredirs : Nat → Cmd → Nat → Except Fail (Cmd × Nat)
  | 0, _, _ => .error .fuel
  | n + 1, cmd, s =>
    let r := peek line s [ch '<', ch '>']
    if r.1 then
      let t := gettoken line r.2
      let w := gettoken line t.s
      if w.tok ≠ ch 'a' then .error (.panic "missing file for redirection")
      else if t.tok = ch '<' then parseredirs n (.redir cmd w.q w.eq O_RDONLY 0) w.s
      else if t.tok = ch '>' then
        parseredirs n (.redir cmd w.q w.eq (O_WRONLY ||| O_CREATE ||| O_TRUNC) 1) w.s
      else if t.tok = ch '+' then
        parseredirs n (.redir cmd w.q w.eq (O_WRONLY ||| O_CREATE) 1) w.s
      else parseredirs n cmd w.s
    else .ok (cmd, r.2)

/-- The loop of `parseexec`. -/
def parseargs : Nat → Cmd → Nat → Nat → Except Fail (Cmd × Nat)
  | 0, _, _, _ => .error .fuel
  | n + 1, cmd, argc, s =>
    let r := peek line s [ch '|', ch ')', ch '&', ch ';']
    if r.1 then .ok (cmd, r.2)
    else
      let t := gettoken line r.2
      if t.tok = 0 then .ok (cmd, t.s)
      else if t.tok ≠ ch 'a' then .error (.panic "syntax")
      else if argc + 1 ≥ MAXARGS then .error (.panic "too many args")
      else
        match parseredirs line n (cmd.addArg t.q t.eq) t.s with
        | .error e => .error e
        | .ok (cmd, s) => parseargs n cmd (argc + 1) s

/-- The loop of `parseline`. -/
def parseback : Nat → Cmd → Nat → Except Fail (Cmd × Nat)
  | 0, _, _ => .error .fuel
  | n + 1, cmd, s =>
    let r := peek line s [ch '&']
    if r.1 then parseback n (.back cmd) (gettoken line r.2).s else .ok (cmd, r.2)

mutual

def parseline : Nat → Nat → Except Fail (Cmd × Nat)
  | 0, _ => .error .fuel
  | n + 1, s =>
    match parsepipe n s with
    | .error e => .error e
    | .ok (cmd, s) =>
      match parseback line n cmd s with
      | .error e => .error e
      | .ok (cmd, s) =>
        let r := peek line s [ch ';']
        if r.1 then
          match parseline n (gettoken line r.2).s with
          | .error e => .error e
          | .ok (right, s) => .ok (.list cmd right, s)
        else .ok (cmd, r.2)

def parsepipe : Nat → Nat → Except Fail (Cmd × Nat)
  | 0, _ => .error .fuel
  | n + 1, s =>
    match parseexec n s with
    | .error e => .error e
    | .ok (cmd, s) =>
      let r := peek line s [ch '|']
      if r.1 then
        match parsepipe n (gettoken line r.2).s with
        | .error e => .error e
        | .ok (right, s) => .ok (.pipe cmd right, s)
      else .ok (cmd, r.2)

def parseexec : Nat → Nat → Except Fail (Cmd × Nat)
  | 0, _ => .error .fuel
  | n + 1, s =>
    let r := peek line s [ch '(']
    if r.1 then parseblock n r.2
    else
      match parseredirs line n (.exec []) r.2 with
      | .error e => .error e
      | .ok (cmd, s) => parseargs line n cmd 0 s

def parseblock : Nat → Nat → Except Fail (Cmd × Nat)
  | 0, _ => .error .fuel
  | n + 1, s =>
    let r := peek line s [ch '(']
    if r.1 then
      match parseline n (gettoken line r.2).s with
      | .error e => .error e
      | .ok (cmd, s) =>
        let r := peek line s [ch ')']
        if r.1 then parseredirs line n cmd (gettoken line r.2).s
        else .error (.panic "syntax - missing )")
    else .error (.panic "parseblock")

end

/-- Write a NUL behind every word. -/
def nulterminate : Cmd → List UInt8 → List UInt8
  | .exec args, buf => args.foldl (fun buf a => buf.set a.2 0) buf
  | .redir c _ efile _ _, buf => (nulterminate c buf).set efile 0
  | .pipe l r, buf => nulterminate r (nulterminate l buf)
  | .list l r, buf => nulterminate r (nulterminate l buf)
  | .back c, buf => nulterminate c buf

/-- The tree and the buffer. -/
def parsecmd (fuel : Nat) : Except Fail (Cmd × List UInt8) :=
  match parseline line fuel 0 with
  | .error e => .error e
  | .ok (cmd, s) =>
    if (peek line s []).2 ≠ line.length then .error (.panic "syntax")
    else .ok (cmd, nulterminate cmd (line ++ [0]))

end Model

/-! ## 2. Grammar -/

inductive Tok where
  | bar
  | lpar
  | rpar
  | semi
  | amp
  | lt
  | gt
  | append
  /-- A word, by its positions. -/
  | word (q eq : Nat)
  deriving DecidableEq

/-- The character of a symbol; `>>` starts with `>`. -/
def Tok.char : Tok → Option UInt8
  | .bar => some (ch '|')
  | .lpar => some (ch '(')
  | .rpar => some (ch ')')
  | .semi => some (ch ';')
  | .amp => some (ch '&')
  | .lt => some (ch '<')
  | .gt | .append => some (ch '>')
  | .word _ _ => none

/-- A character of a word. -/
def IsWord (c : UInt8) : Prop := c ≠ 0 ∧ c ∉ whitespace ∧ c ∉ symbols

/-- The tokens of the line from position `s` on. -/
inductive Lexes (line : List UInt8) : Nat → List Tok → Prop where
  | done : Lexes line line.length []
  | space {s : Nat} {ts : List Tok} : chr line s ∈ whitespace → Lexes line (s + 1) ts →
    Lexes line s ts
  | symbol {s : Nat} {ts : List Tok} (t : Tok) : t ≠ .append → t.char = some (chr line s) →
      (t = .gt → chr line (s + 1) ≠ ch '>') → Lexes line (s + 1) ts → Lexes line s (t :: ts)
  | append {s : Nat} {ts : List Tok} : chr line s = ch '>' → chr line (s + 1) = ch '>' →
      Lexes line (s + 2) ts → Lexes line s (.append :: ts)
  | word {s e : Nat} {ts : List Tok} : s < e → (∀ i, s ≤ i → i < e → IsWord (chr line i)) →
      ¬ IsWord (chr line e) → Lexes line e ts → Lexes line s (.word s e :: ts)

inductive RedirOp where
  | lt
  | gt
  | append
  deriving DecidableEq

/-- A redirection to the file named by the word `(q, eq)`. -/
structure Redir where
  op : RedirOp
  q : Nat
  eq : Nat

def RedirOp.tok : RedirOp → Tok
  | .lt => .lt
  | .gt => .gt
  | .append => .append

/-- With which mode the file is opened. -/
def RedirOp.mode : RedirOp → Nat
  | .lt => O_RDONLY
  | .gt => O_WRONLY ||| O_CREATE ||| O_TRUNC
  | .append => O_WRONLY ||| O_CREATE

/-- Which descriptor is redirected. -/
def RedirOp.fd : RedirOp → Nat
  | .lt => 0
  | .gt | .append => 1

def Redir.toks (r : Redir) : List Tok := [r.op.tok, .word r.q r.eq]

def Redir.node (c : Cmd) (r : Redir) : Cmd := .redir c r.q r.eq r.op.mode r.op.fd

/-- The redirections around a command; the one read first is innermost. -/
def wrap (c : Cmd) (rs : List Redir) : Cmd := rs.foldl Redir.node c

/-- A word of a command and the redirections behind it. -/
structure Arg where
  q : Nat
  eq : Nat
  redirs : List Redir

def Arg.toks (a : Arg) : List Tok := .word a.q a.eq :: a.redirs.flatMap Redir.toks

def Arg.pos (a : Arg) : Nat × Nat := (a.q, a.eq)

/-- One `BACK` node for each `&`. -/
def backs : Nat → Cmd → Cmd
  | 0, c => c
  | n + 1, c => backs n (.back c)

/-- The nonterminals. -/
inductive Kind where
  | line
  | pipe
  | exec

/-- The derivations, each with its tree. -/
inductive Derives : Kind → List Tok → Cmd → Prop where
  | line {ts : List Tok} {c : Cmd} (n : Nat) : Derives .pipe ts c →
      Derives .line (ts ++ List.replicate n .amp) (backs n c)
  | list {ts us : List Tok} {c d : Cmd} (n : Nat) : Derives .pipe ts c → Derives .line us d →
      Derives .line (ts ++ List.replicate n .amp ++ .semi :: us) (.list (backs n c) d)
  | single {ts : List Tok} {c : Cmd} : Derives .exec ts c → Derives .pipe ts c
  | pipe {ts us : List Tok} {c d : Cmd} : Derives .exec ts c → Derives .pipe us d →
      Derives .pipe (ts ++ .bar :: us) (.pipe c d)
  | block {ts : List Tok} {c : Cmd} (rs : List Redir) : Derives .line ts c →
      Derives .exec (.lpar :: ts ++ .rpar :: rs.flatMap Redir.toks) (wrap c rs)
  | simple (rs : List Redir) (args : List Arg) : args.length ≤ MAXARGS - 1 →
      Derives .exec (rs.flatMap Redir.toks ++ args.flatMap Arg.toks)
        (wrap (.exec (args.map Arg.pos)) (rs ++ args.flatMap Arg.redirs))

/-! ## 3. Tokens -/

/-- What `gettoken` returns for a token. -/
def Tok.code : Tok → UInt8
  | .bar => ch '|'
  | .lpar => ch '('
  | .rpar => ch ')'
  | .semi => ch ';'
  | .amp => ch '&'
  | .lt => ch '<'
  | .gt => ch '>'
  | .append => ch '+'
  | .word _ _ => ch 'a'

section Tokens

variable {line : List UInt8} {s e : Nat} {t : Tok} {ts : List Tok}

theorem chr_of_le (h : line.length ≤ s) : chr line s = 0 := by
  simp [chr, getElem?_eq_none h]

theorem lt_of_chr_ne_zero (h : chr line s ≠ 0) : s < line.length := by
  by_contra hge
  exact h (chr_of_le (not_lt.mp hge))

theorem chr_ne_zero (h0 : (0 : UInt8) ∉ line) (hs : s < line.length) : chr line s ≠ 0 := by
  intro h
  apply h0
  rw [← h, chr, getD_eq_getElem line 0 hs]
  exact getElem_mem hs

theorem zero_not_space : (0 : UInt8) ∉ whitespace := by decide

theorem ne_zero_of_space {c : UInt8} (h : c ∈ whitespace) : c ≠ 0 := by
  intro h0
  exact zero_not_space (h0 ▸ h)

/-- The character of a symbol is one of `symbols` and no blank. -/
theorem Tok.char_mem {c : UInt8} (h : t.char = some c) : c ∈ symbols ∧ c ∉ whitespace ∧ c ≠ 0 := by
  cases t <;> simp only [Tok.char, Option.some.injEq, reduceCtorEq] at h <;> subst h <;> decide

/-- Where a loop of the scanner stops. -/
theorem skipWhile_spec (p : UInt8 → Bool) (n : Nat) (hn : n = line.length - s)
    (hs : s ≤ line.length) :
    s ≤ skipWhile line p n s ∧ skipWhile line p n s ≤ line.length ∧
    (∀ i, s ≤ i → i < skipWhile line p n s → p (chr line i) = true) ∧
    (skipWhile line p n s = line.length ∨ p (chr line (skipWhile line p n s)) = false) := by
  induction n generalizing s with
  | zero =>
    simp only [skipWhile]
    exact ⟨le_refl s, hs, fun i h1 h2 => by omega, .inl (by omega)⟩
  | succ n ih =>
    simp only [skipWhile]
    split
    · next hp =>
      obtain ⟨h1, h2, h3, h4⟩ := ih (s := s + 1) (by omega) (by omega)
      refine ⟨by omega, h2, ?_, h4⟩
      intro i hsi hi
      rcases eq_or_lt_of_le hsi with rfl | hlt
      · exact hp
      · exact h3 i hlt hi
    · next hp =>
      exact ⟨le_refl s, hs, fun i h1 h2 => by omega, .inr (by simpa using hp)⟩

theorem skipSpace_spec (hs : s ≤ line.length) :
    s ≤ skipSpace line s ∧ (∀ i, s ≤ i → i < skipSpace line s → chr line i ∈ whitespace) ∧
      chr line (skipSpace line s) ∉ whitespace := by
  obtain ⟨h1, h2, h3, h4⟩ := skipWhile_spec (strchr whitespace) _ rfl hs
  refine ⟨h1, fun i hi hlt => by simpa [strchr] using h3 i hi hlt, ?_⟩
  rcases h4 with h4 | h4
  · unfold skipSpace
    rw [h4, chr_of_le (le_refl _)]
    exact zero_not_space
  · change strchr whitespace (chr line (skipSpace line s)) = false at h4
    simpa [strchr] using h4

/-- The end of a word. -/
theorem skipWord_eq (h0 : (0 : UInt8) ∉ line) (hse : s < e)
    (hw : ∀ i, s ≤ i → i < e → IsWord (chr line i)) (he : ¬ IsWord (chr line e)) :
    skipWord line s = e := by
  have hel : e ≤ line.length := by
    have := lt_of_chr_ne_zero (hw (e - 1) (by omega) (by omega)).1
    omega
  obtain ⟨h1, h2, h3, h4⟩ := skipWhile_spec
    (fun c => !strchr whitespace c && !strchr symbols c) _ rfl (show s ≤ line.length by omega)
  change s ≤ skipWord line s at h1
  change skipWord line s ≤ line.length at h2
  rcases lt_trichotomy (skipWord line s) e with hlt | heq | hgt
  · -- it stopped inside of the word
    have hin := hw _ h1 hlt
    rcases h4 with h4 | h4
    · change skipWord line s = line.length at h4
      omega
    · change (!strchr whitespace (chr line (skipWord line s)) &&
        !strchr symbols (chr line (skipWord line s))) = false at h4
      simp [strchr, hin.2.1, hin.2.2] at h4
  · exact heq
  · -- it went past the end
    have hp := h3 e (by omega) hgt
    simp only [strchr, Bool.and_eq_true, Bool.not_eq_true', contains_eq_mem,
      decide_eq_false_iff_not] at hp
    exact absurd ⟨chr_ne_zero h0 (by omega), hp.1, hp.2⟩ he

namespace Lexes

section

variable (h : Lexes line s ts)
include h

theorem le_length : s ≤ line.length := by
  cases h with
  | done => exact le_refl _
  | space hc _ => exact (lt_of_chr_ne_zero (ne_zero_of_space hc)).le
  | symbol t _ hc _ _ => exact (lt_of_chr_ne_zero (Tok.char_mem hc).2.2).le
  | append hc _ _ =>
    have : chr line s ≠ 0 := by rw [hc]; decide
    exact (lt_of_chr_ne_zero this).le
  | word hse hw _ _ => exact (lt_of_chr_ne_zero (hw s (le_refl s) hse).1).le

/-- A blank is skipped. -/
theorem of_space (hc : chr line s ∈ whitespace) : Lexes line (s + 1) ts := by
  cases h with
  | done => exact absurd (chr_of_le (le_refl _)) (ne_zero_of_space hc)
  | space _ h => exact h
  | symbol t _ hc' _ _ => exact absurd hc (Tok.char_mem hc').2.1
  | append hc' _ _ =>
    rw [hc'] at hc
    exact absurd hc (by decide)
  | word hse hw _ _ => exact absurd hc (hw s (le_refl s) hse).2.1

theorem of_skip (hse : s ≤ e) (hc : ∀ i, s ≤ i → i < e → chr line i ∈ whitespace) :
    Lexes line e ts := by
  induction e, hse using le_induction with
  | base => exact h
  | succ e hse ih =>
    have := ih fun i h1 h2 => hc i h1 (by omega)
    exact this.of_space (hc e hse (by omega))

theorem skipSpace :
    Lexes line (skipSpace line s) ts ∧ chr line (Sh.skipSpace line s) ∉ whitespace := by
  obtain ⟨h1, h2, h3⟩ := skipSpace_spec h.le_length
  exact ⟨h.of_skip h1 h2, h3⟩

end

theorem scan_nil (h : Lexes line s []) (hc : chr line s ∉ whitespace) :
    s = line.length ∧ scan line s = (0, s) := by
  cases h with
  | done =>
    refine ⟨rfl, ?_⟩
    simp [scan, chr_of_le (le_refl line.length)]
  | space hc' _ => exact absurd hc' hc

theorem scan_symbol (t : Tok) (ht : t ≠ .append) (hc : t.char = some (chr line s))
    (hgt : t = .gt → chr line (s + 1) ≠ ch '>') : scan line s = (t.code, s + 1) := by
  cases t with
  | append => exact absurd rfl ht
  | word q eq => cases hc
  | gt =>
    have hne := hgt rfl
    injection hc with hc
    simp only [scan, ← hc, hne, if_false]
    rfl
  | _ =>
    injection hc with hc
    simp only [scan, ← hc]
    rfl

theorem scan_append (hc : chr line s = ch '>') (hc' : chr line (s + 1) = ch '>') :
    scan line s = (ch '+', s + 2) := by
  simp only [scan, hc, hc', if_true]
  rfl

theorem scan_word (h0 : (0 : UInt8) ∉ line) (hse : s < e)
    (hw : ∀ i, s ≤ i → i < e → IsWord (chr line i)) (he : ¬ IsWord (chr line e)) :
    scan line s = (ch 'a', e) := by
  obtain ⟨hne, -, hsym⟩ := hw s (le_refl s) hse
  simp only [symbols, mem_cons, not_mem_nil, or_false, not_or] at hsym
  obtain ⟨h1, h2, h3, h4, h5, h6, h7⟩ := hsym
  simp only [scan, hne, if_false, strchr, h3, skipWord_eq h0 hse hw he]
  rw [if_neg]
  simp [h1, h2, h4, h5, h6, h7]

/-- The scanner sees the next token. -/
theorem scan (h0 : (0 : UInt8) ∉ line) (h : Lexes line s (t :: ts)) (hc : chr line s ∉ whitespace) :
    ∃ e, Sh.scan line s = (t.code, e) ∧ Lexes line e ts ∧
      ∀ q eq, t = .word q eq → q = s ∧ eq = e := by
  cases h with
  | space hc' _ => exact absurd hc' hc
  | symbol _ ht hch hgt hr =>
    refine ⟨s + 1, scan_symbol t ht hch hgt, hr, ?_⟩
    intro q eq he
    rw [he] at hch
    cases hch
  | append hc1 hc2 hr => exact ⟨s + 2, scan_append hc1 hc2, hr, by simp⟩
  | @word _ e _ hse hw he hr =>
    refine ⟨e, scan_word h0 hse hw he, hr, ?_⟩
    intro q eq h
    injection h with hq heq
    exact ⟨hq.symm, heq.symm⟩

theorem gettoken_nil (h : Lexes line s []) :
    (gettoken line s).tok = 0 ∧ (gettoken line s).s = line.length := by
  obtain ⟨h1, h2⟩ := h.skipSpace
  obtain ⟨hlen, hscan⟩ := h1.scan_nil h2
  simp only [gettoken, hscan]
  refine ⟨trivial, ?_⟩
  rw [hlen, Sh.skipSpace, Nat.sub_self]
  rfl

/-- **`gettoken`** returns the next token and moves the cursor behind it. -/
theorem gettoken (h0 : (0 : UInt8) ∉ line) (h : Lexes line s (t :: ts)) :
    (gettoken line s).tok = t.code ∧ Lexes line (Sh.gettoken line s).s ts ∧
      ∀ q eq, t = .word q eq → (Sh.gettoken line s).q = q ∧ (Sh.gettoken line s).eq = eq := by
  obtain ⟨h1, h2⟩ := h.skipSpace
  obtain ⟨e, hscan, hr, hpos⟩ := h1.scan h0 h2
  simp only [Sh.gettoken, hscan]
  refine ⟨trivial, hr.skipSpace.1, ?_⟩
  intro q eq he
  obtain ⟨hq, heq⟩ := hpos q eq he
  exact ⟨hq.symm, heq.symm⟩

end Lexes

/-- Whether the first token is one of the symbols `toks`. -/
def heads (toks : List UInt8) : List Tok → Bool
  | [] => false
  | t :: _ =>
    match t.char with
    | some c => toks.contains c
    | none => false

/-- **`peek`** sees the next token. -/
theorem Lexes.peek (h : Lexes line s ts) (toks : List UInt8) (htoks : ∀ c ∈ toks, c ∈ symbols) :
    Lexes line (peek line s toks).2 ts ∧ (Sh.peek line s toks).1 = heads toks ts := by
  obtain ⟨h1, h2⟩ := h.skipSpace
  refine ⟨h1, ?_⟩
  simp only [Sh.peek, strchr]
  generalize Sh.skipSpace line s = s' at h1 h2
  cases h1 with
  | done => simp [heads, chr_of_le (le_refl line.length)]
  | space hc _ => exact absurd hc h2
  | symbol t _ hc _ _ => simp [heads, hc, (Tok.char_mem hc).2.2]
  | append hc _ _ =>
    have hne : ch '>' ≠ 0 := by decide
    simp [heads, Tok.char, hc, hne]
  | word hse hw _ _ =>
    have hno : chr line s' ∉ toks := fun hm => (hw s' (le_refl s') hse).2.2 (htoks _ hm)
    simp [heads, Tok.char, hno]

end Tokens

/-! ## 4. Soundness -/

/-- The result satisfies `Q`, or it is a panic. -/
def Sat (r : Except Fail (Cmd × Nat)) (Q : Cmd → Nat → Prop) : Prop :=
  match r with
  | .ok (c, s) => Q c s
  | .error e => e ≠ .fuel

section

variable {r : Except Fail (Cmd × Nat)} {Q R : Cmd → Nat → Prop}

theorem Sat.of_ok {c : Cmd} {s : Nat} (h : Sat r Q) (hr : r = .ok (c, s)) : Q c s := by
  rw [hr] at h
  exact h

theorem Sat.of_error {e : Fail} (h : Sat r Q) (hr : r = .error e) : e ≠ .fuel := by
  rw [hr] at h
  exact h

theorem Sat.mono (h : Sat r Q) (hQ : ∀ c s, Q c s → R c s) : Sat r R := by
  cases r with
  | error e => exact h
  | ok x => exact hQ x.1 x.2 h

/-- Sequencing: a panic of the first part is one of the whole. -/
theorem Sat.seq {r' : Except Fail (Cmd × Nat)} (h : Sat r Q)
    (he : ∀ e, r = .error e → r' = .error e) (hok : ∀ c s, r = .ok (c, s) → Q c s → Sat r' R) :
    Sat r' R := by
  cases hr : r with
  | error e =>
    rw [he e hr]
    exact h.of_error hr
  | ok x => exact hok x.1 x.2 hr (h.of_ok hr)

end

theorem wrap_addArg (c : Cmd) (rs : List Redir) (q eq : Nat) :
    (wrap c rs).addArg q eq = wrap (c.addArg q eq) rs := by
  induction rs generalizing c with
  | nil => rfl
  | cons r rs ih => exact ih (r.node c)

theorem wrap_append (c : Cmd) (rs rs' : List Redir) : wrap c (rs ++ rs') = wrap (wrap c rs) rs' :=
  foldl_append

/-- The symbol of a character other than `>`. -/
def Tok.ofChar (c : UInt8) : Tok :=
  if c = ch '|' then .bar
  else if c = ch '(' then .lpar
  else if c = ch ')' then .rpar
  else if c = ch ';' then .semi
  else if c = ch '&' then .amp
  else .lt

theorem Tok.eq_ofChar {t : Tok} {c : UInt8} (h : t.char = some c) (hc : c ≠ ch '>') :
    t = Tok.ofChar c := by
  cases t with
  | word q eq => cases h
  | gt => exact absurd (Option.some.inj h).symm hc
  | append => exact absurd (Option.some.inj h).symm hc
  | _ => injection h with h; subst h; rfl

/-- A single character other than `>` tells the token. -/
theorem heads_single {c : UInt8} {t : Tok} {ts : List Tok} (ht : Tok.ofChar c = t) (hc : c ≠ ch '>')
    (h : heads [c] ts = true) : ∃ us, ts = t :: us := by
  subst ht
  cases ts with
  | nil => cases h
  | cons t us =>
    cases hch : t.char with
    | none => simp [heads, hch] at h
    | some c' =>
      simp only [heads, hch] at h
      have hcc : c' = c := by simpa using h
      exact ⟨us, by rw [Tok.eq_ofChar (hch.trans (congrArg some hcc)) hc]⟩

theorem heads_redir {ts : List Tok} (h : heads [ch '<', ch '>'] ts = true) :
    ∃ (op : RedirOp) (us : List Tok), ts = op.tok :: us := by
  cases ts with
  | nil => cases h
  | cons t us =>
    cases t with
    | lt => exact ⟨.lt, us, rfl⟩
    | gt => exact ⟨.gt, us, rfl⟩
    | append => exact ⟨.append, us, rfl⟩
    | _ => cases h

theorem Tok.code_ne_zero (t : Tok) : t.code ≠ 0 := by
  cases t <;> simp only [Tok.code] <;> decide

theorem Tok.eq_word {t : Tok} (h : t.code = ch 'a') : ∃ q eq, t = .word q eq := by
  cases t with
  | word q eq => exact ⟨q, eq, rfl⟩
  | _ => exact absurd h (by decide)

section Soundness

variable {line : List UInt8} {s : Nat} {ts : List Tok} {c : UInt8} {t : Tok}

/-- The symbol `c` is not next, or it is and can be taken. -/
theorem Lexes.next (h0 : (0 : UInt8) ∉ line) (h : Lexes line s ts) (hc : c ∈ symbols)
    (ht : Tok.ofChar c = t) (hgt : c ≠ ch '>') :
    (Sh.peek line s [c]).1 = false ∧ Lexes line (Sh.peek line s [c]).2 ts ∨
    ∃ us, ts = t :: us ∧ (Sh.peek line s [c]).1 = true ∧
      Lexes line (Sh.gettoken line (Sh.peek line s [c]).2).s us := by
  obtain ⟨hl, hpeek⟩ := h.peek [c] (by simpa using hc)
  rw [hpeek]
  cases hh : heads [c] ts with
  | false => exact .inl ⟨rfl, hl⟩
  | true =>
    obtain ⟨us, rfl⟩ := heads_single ht hgt hh
    exact .inr ⟨us, rfl, rfl, (hl.gettoken h0).2.1⟩

/-- The symbol at the front is taken. -/
theorem Lexes.take (h0 : (0 : UInt8) ∉ line) (h : Lexes line s (t :: ts)) (hc : t.char = some c) :
    (Sh.peek line s [c]).1 = true ∧ Lexes line (Sh.gettoken line (Sh.peek line s [c]).2).s ts := by
  obtain ⟨hl, hpeek⟩ := h.peek [c] (by simpa using (Tok.char_mem hc).1)
  refine ⟨?_, (hl.gettoken h0).2.1⟩
  rw [hpeek]
  simp [heads, hc]

/-- The node that `parseredirs` adds. -/
theorem parseredirs_step (n : Nat) (op : RedirOp) (cmd : Cmd) (q eq s : Nat) :
    (if op.tok.code = ch '<' then parseredirs line n (.redir cmd q eq O_RDONLY 0) s
      else if op.tok.code = ch '>' then
        parseredirs line n (.redir cmd q eq (O_WRONLY ||| O_CREATE ||| O_TRUNC) 1) s
      else if op.tok.code = ch '+' then
        parseredirs line n (.redir cmd q eq (O_WRONLY ||| O_CREATE) 1) s
      else parseredirs line n cmd s) = parseredirs line n (Redir.node cmd ⟨op, q, eq⟩) s := by
  cases op <;> rfl

theorem single_symbols (h : c ∈ symbols) : ∀ d ∈ [c], d ∈ symbols := by
  simpa using h

theorem redir_symbols : ∀ c ∈ [ch '<', ch '>'], c ∈ symbols := by simp [symbols]

theorem stop_symbols : ∀ c ∈ [ch '|', ch ')', ch '&', ch ';'], c ∈ symbols := by simp [symbols]

section

variable (h0 : (0 : UInt8) ∉ line) (n : Nat) (hl : Lexes line s ts) (hn : ts.length < n)
include h0 n hl hn

theorem parseredirs_sound (c : Cmd) :
    Sat (parseredirs line n c s) fun c' s' =>
      ∃ rs rest, ts = rs.flatMap Redir.toks ++ rest ∧ c' = wrap c rs ∧ Lexes line s' rest := by
  induction n generalizing s ts c with
  | zero => omega
  | succ n ih =>
    obtain ⟨hl', hpeek⟩ := hl.peek _ redir_symbols
    unfold parseredirs
    simp only [hpeek]
    cases hh : heads [ch '<', ch '>'] ts with
    | false => exact ⟨[], ts, rfl, rfl, hl'⟩
    | true =>
      simp only [if_true]
      obtain ⟨op, us, rfl⟩ := heads_redir hh
      obtain ⟨htok, hus, -⟩ := hl'.gettoken h0
      simp only [htok]
      split
      · simp [Sat]
      · next hword =>
        -- the word behind the operator
        have hword : (gettoken line (gettoken line _).s).tok = ch 'a' := not_not.mp hword
        cases us with
        | nil =>
          rw [hus.gettoken_nil.1] at hword
          exact absurd hword (by decide)
        | cons u vs =>
          obtain ⟨hu, hvs, hpos⟩ := hus.gettoken h0
          obtain ⟨q, eq, rfl⟩ := Tok.eq_word (hu.symm.trans hword)
          obtain ⟨hq, heq⟩ := hpos q eq rfl
          simp only [hq, heq, parseredirs_step]
          refine (ih hvs (by simp at hn; omega) (Redir.node c ⟨op, q, eq⟩)).mono ?_
          rintro c' s' ⟨rs, rest, rfl, hc, hl''⟩
          exact ⟨⟨op, q, eq⟩ :: rs, rest, rfl, hc, hl''⟩

theorem parseback_sound (c : Cmd) :
    Sat (parseback line n c s) fun c' s' =>
      ∃ k rest, ts = replicate k .amp ++ rest ∧ c' = backs k c ∧ Lexes line s' rest := by
  induction n generalizing s ts c with
  | zero => omega
  | succ n ih =>
    unfold parseback
    rcases hl.next h0 (c := ch '&') (t := .amp) (by decide) rfl (by decide)
      with ⟨hpeek, hl'⟩ | ⟨us, rfl, hpeek, hus⟩
    · simp only [hpeek]
      exact ⟨0, ts, rfl, rfl, hl'⟩
    · simp only [hpeek, if_true]
      refine (ih hus (by simp at hn; omega) (.back c)).mono ?_
      rintro c' s' ⟨k, rest, rfl, hc, hl''⟩
      exact ⟨k + 1, rest, rfl, hc, hl''⟩

/-- With `args` read so far and the redirections `rs` around them. -/
theorem parseargs_sound (args : List (Nat × Nat)) (hargs : args.length ≤ MAXARGS - 1)
    (rs : List Redir) :
    Sat (parseargs line n (wrap (.exec args) rs) args.length s)
      fun c' s' => ∃ (as : List Arg) (rest : List Tok),
        ts = as.flatMap Arg.toks ++ rest ∧ args.length + as.length ≤ MAXARGS - 1 ∧
        c' = wrap (.exec (args ++ as.map Arg.pos)) (rs ++ as.flatMap Arg.redirs) ∧
        Lexes line s' rest := by
  induction n generalizing s ts args rs with
  | zero => omega
  | succ n ih =>
    obtain ⟨hl', hpeek⟩ := hl.peek _ stop_symbols
    unfold parseargs
    simp only [hpeek]
    cases hh : heads [ch '|', ch ')', ch '&', ch ';'] ts with
    | true => exact ⟨[], ts, rfl, hargs, by simp, hl'⟩
    | false =>
      simp only [Bool.false_eq_true, if_false]
      cases ts with
      | nil =>
        obtain ⟨htok, hend⟩ := hl'.gettoken_nil
        simp only [htok, hend, if_true]
        exact ⟨[], [], rfl, hargs, by simp, .done⟩
      | cons t us =>
        obtain ⟨htok, hus, hpos⟩ := hl'.gettoken h0
        simp only [htok, t.code_ne_zero, if_false]
        split
        · simp [Sat]
        · next hword =>
          obtain ⟨q, eq, rfl⟩ := Tok.eq_word (not_not.mp hword)
          obtain ⟨hq, heq⟩ := hpos q eq rfl
          split
          · simp [Sat]
          · next hmax =>
            simp only [hq, heq, wrap_addArg, Cmd.addArg]
            refine (parseredirs_sound h0 n hus (by simp at hn; omega)
              (wrap (.exec (args ++ [(q, eq)])) rs)).seq (fun e he => by rw [he]) ?_
            rintro _ s1 hr ⟨rs', rest, rfl, rfl, hl1⟩
            simp only [hr]
            have hlen : rest.length < n := by
              simp at hn
              omega
            -- the loop goes on with one more word and the redirections behind it
            have hrec := ih hl1 hlen (args ++ [(q, eq)]) (by simp; omega) (rs ++ rs')
            rw [wrap_append, length_append, length_singleton] at hrec
            refine hrec.mono ?_
            rintro c' s' ⟨as, rest', rfl, hmax', hc, hl2⟩
            refine ⟨⟨q, eq, rs'⟩ :: as, rest', ?_, ?_, ?_, hl2⟩
            · simp [Arg.toks]
            · simp at hmax' ⊢
              omega
            · rw [hc]
              simp [Arg.pos]

end

/-- Some of the tokens were parsed, and the cursor is behind them. -/
def Yields (line : List UInt8) (k : Kind) (ts : List Tok) (c : Cmd) (s' : Nat) : Prop :=
  ∃ us rest, ts = us ++ rest ∧ Derives k us c ∧ Lexes line s' rest

/-- What the four functions return. -/
structure Parses (line : List UInt8) (n : Nat) : Prop where
  ofLine : ∀ s ts, Lexes line s ts → 4 * ts.length + 4 ≤ n →
    Sat (parseline line n s) (Yields line .line ts)
  ofPipe : ∀ s ts, Lexes line s ts → 4 * ts.length + 3 ≤ n →
    Sat (parsepipe line n s) (Yields line .pipe ts)
  ofExec : ∀ s ts, Lexes line s ts → 4 * ts.length + 2 ≤ n →
    Sat (parseexec line n s) (Yields line .exec ts)
  ofBlock : ∀ s ts, Lexes line s ts → 4 * ts.length + 1 ≤ n →
    Sat (parseblock line n s) (Yields line .exec ts)

section

variable {n : Nat} (h0 : (0 : UInt8) ∉ line) (ih : Parses line n) (hl : Lexes line s ts)
include h0 ih hl

theorem Parses.succ_line (hn : 4 * ts.length + 4 ≤ n + 1) :
    Sat (parseline line (n + 1) s) (Yields line .line ts) := by
  unfold parseline
  refine (ih.ofPipe s ts hl (by omega)).seq (fun e he => by rw [he]) ?_
  rintro c1 s1 hr ⟨us1, rest1, rfl, hd1, hl1⟩
  simp only [hr]
  simp only [length_append] at hn
  refine (parseback_sound h0 n hl1 (by omega) c1).seq (fun e he => by rw [he]) ?_
  rintro _ s2 hr ⟨k, rest2, rfl, rfl, hl2⟩
  simp only [hr]
  rcases hl2.next h0 (c := ch ';') (t := .semi) (by decide) rfl (by decide)
    with ⟨hpeek, hl2'⟩ | ⟨vs, rfl, hpeek, hvs⟩
  · simp only [hpeek]
    exact ⟨us1 ++ replicate k .amp, rest2, by simp, .line k hd1, hl2'⟩
  · simp only [hpeek, if_true]
    simp only [length_append, length_cons] at hn
    refine (ih.ofLine _ vs hvs (by omega)).seq (fun e he => by rw [he]) ?_
    rintro c2 s3 hr ⟨us2, rest3, rfl, hd2, hl3⟩
    simp only [hr]
    exact ⟨us1 ++ replicate k .amp ++ .semi :: us2, rest3, by simp, .list k hd1 hd2, hl3⟩

theorem Parses.succ_pipe (hn : 4 * ts.length + 3 ≤ n + 1) :
    Sat (parsepipe line (n + 1) s) (Yields line .pipe ts) := by
  unfold parsepipe
  refine (ih.ofExec s ts hl (by omega)).seq (fun e he => by rw [he]) ?_
  rintro c1 s1 hr ⟨us1, rest1, rfl, hd1, hl1⟩
  simp only [hr]
  rcases hl1.next h0 (c := ch '|') (t := .bar) (by decide) rfl (by decide)
    with ⟨hpeek, hl1'⟩ | ⟨vs, rfl, hpeek, hvs⟩
  · simp only [hpeek]
    exact ⟨us1, rest1, rfl, .single hd1, hl1'⟩
  · simp only [hpeek, if_true]
    simp only [length_append, length_cons] at hn
    refine (ih.ofPipe _ vs hvs (by omega)).seq (fun e he => by rw [he]) ?_
    rintro c2 s2 hr ⟨us2, rest2, rfl, hd2, hl2⟩
    simp only [hr]
    exact ⟨us1 ++ .bar :: us2, rest2, by simp, .pipe hd1 hd2, hl2⟩

theorem Parses.succ_exec (hn : 4 * ts.length + 2 ≤ n + 1) :
    Sat (parseexec line (n + 1) s) (Yields line .exec ts) := by
  unfold parseexec
  obtain ⟨hl', hpeek⟩ := hl.peek [ch '('] (single_symbols (by simp [symbols]))
  simp only [hpeek]
  cases hh : heads [ch '('] ts with
  | true =>
    simp only [if_true]
    exact ih.ofBlock _ ts hl' (by omega)
  | false =>
    simp only [Bool.false_eq_true, if_false]
    refine (parseredirs_sound h0 n hl' (by omega) (.exec [])).seq (fun e he => by rw [he]) ?_
    rintro _ s1 hr ⟨rs, rest1, rfl, rfl, hl1⟩
    simp only [hr]
    simp only [length_append] at hn
    refine (parseargs_sound h0 n hl1 (by omega) [] (zero_le _) rs).mono ?_
    rintro c2 s2 ⟨as, rest2, rfl, hmax, hc, hl2⟩
    refine ⟨rs.flatMap Redir.toks ++ as.flatMap Arg.toks, rest2, by simp, ?_, hl2⟩
    rw [hc, nil_append]
    exact .simple rs as (by simpa using hmax)

theorem Parses.succ_block (hn : 4 * ts.length + 1 ≤ n + 1) :
    Sat (parseblock line (n + 1) s) (Yields line .exec ts) := by
  unfold parseblock
  rcases hl.next h0 (c := ch '(') (t := .lpar) (by decide) rfl (by decide) with ⟨hpeek, -⟩
    | ⟨us, rfl, hpeek, hus⟩
  · simp [hpeek, Sat]
  · simp only [hpeek, if_true]
    simp only [length_cons] at hn
    refine (ih.ofLine _ us hus (by omega)).seq (fun e he => by rw [he]) ?_
    rintro c1 s1 hr ⟨us1, rest1, rfl, hd1, hl1⟩
    simp only [hr]
    rcases hl1.next h0 (c := ch ')') (t := .rpar) (by decide) rfl (by decide)
      with ⟨hpeek, -⟩ | ⟨vs, rfl, hpeek, hvs⟩
    · simp [hpeek, Sat]
    · simp only [hpeek, if_true]
      simp only [length_append, length_cons] at hn
      refine (parseredirs_sound h0 n hvs (by omega) c1).mono ?_
      rintro _ s2 ⟨rs, rest2, rfl, rfl, hl2⟩
      exact ⟨.lpar :: us1 ++ .rpar :: rs.flatMap Redir.toks, rest2, by simp, .block rs hd1, hl2⟩

end

/-- **What is parsed derives from the grammar**, and the fuel suffices. -/
theorem parses (h0 : (0 : UInt8) ∉ line) (n : Nat) : Parses line n := by
  induction n with
  | zero => constructor <;> intros <;> omega
  | succ n ih =>
    constructor
    · intro s ts hl hn
      exact ih.succ_line h0 hl hn
    · intro s ts hl hn
      exact ih.succ_pipe h0 hl hn
    · intro s ts hl hn
      exact ih.succ_exec h0 hl hn
    · intro s ts hl hn
      exact ih.succ_block h0 hl hn

end Soundness

/-! ## 5. Completeness -/

section Completeness

variable {line : List UInt8} {s : Nat} {rest : List Tok} {k : Kind} {ts : List Tok}

/-- The tokens that can follow a nonterminal. -/
def Follow (k : Kind) (rest : List Tok) : Prop :=
  match rest with
  | [] => True
  | t :: _ =>
    match k, t with
    | _, .rpar => True
    | .pipe, .semi | .pipe, .amp => True
    | .exec, .semi | .exec, .amp | .exec, .bar => True
    | _, _ => False

theorem Follow.not_redir (h : Follow k rest) : heads [ch '<', ch '>'] rest = false := by
  cases rest with
  | nil => rfl
  | cons t us => cases t <;> first | rfl | (cases k <;> exact h.elim)

theorem Follow.not_bar (h : Follow .pipe rest) : heads [ch '|'] rest = false := by
  cases rest with
  | nil => rfl
  | cons t us => cases t <;> first | rfl | exact h.elim

theorem Follow.not_amp (h : Follow .line rest) : heads [ch '&'] rest = false := by
  cases rest with
  | nil => rfl
  | cons t us => cases t <;> first | rfl | exact h.elim

theorem Follow.not_semi (h : Follow .line rest) : heads [ch ';'] rest = false := by
  cases rest with
  | nil => rfl
  | cons t us => cases t <;> first | rfl | exact h.elim

/-- The loop of `parseexec` ends there. -/
theorem Follow.stops (h : Follow .exec rest) :
    rest = [] ∨ heads [ch '|', ch ')', ch '&', ch ';'] rest = true := by
  cases rest with
  | nil => exact .inl rfl
  | cons t us => cases t <;> first | exact .inr rfl | exact h.elim

theorem Follow.to_pipe (h : Follow .line rest) : Follow .pipe rest := by
  cases rest with
  | nil => trivial
  | cons t us => cases t <;> trivial

theorem Follow.to_exec (h : Follow .pipe rest) : Follow .exec rest := by
  cases rest with
  | nil => trivial
  | cons t us => cases t <;> trivial

/-- Behind a pipe there are the `&`s. -/
theorem follow_amps (n : Nat) (h : Follow .pipe rest) :
    Follow .pipe (replicate n .amp ++ rest) := by
  cases n with
  | zero => exact h
  | succ n => trivial

theorem heads_redir_tok (op : RedirOp) (us : List Tok) :
    heads [ch '<', ch '>'] (op.tok :: us) = true := by
  cases op <;> rfl

theorem parseredirs_complete (h0 : (0 : UInt8) ∉ line) (rs : List Redir) (n : Nat)
    (hl : Lexes line s (rs.flatMap Redir.toks ++ rest)) (hn : rs.length < n)
    (hrest : heads [ch '<', ch '>'] rest = false) (c : Cmd) :
    ∃ s', parseredirs line n c s = .ok (wrap c rs, s') ∧ Lexes line s' rest := by
  induction rs generalizing s n c with
  | nil =>
    obtain ⟨m, rfl⟩ : ∃ m, n = m + 1 := ⟨n - 1, by simp at hn; omega⟩
    obtain ⟨hl', hpeek⟩ := hl.peek _ redir_symbols
    rw [flatMap_nil, nil_append] at hl' hpeek
    refine ⟨_, ?_, hl'⟩
    unfold parseredirs
    simp only [hpeek, hrest]
    rfl
  | cons r rs ih =>
    obtain ⟨m, rfl⟩ : ∃ m, n = m + 1 := ⟨n - 1, by simp at hn; omega⟩
    obtain ⟨op, q, eq⟩ := r
    rw [flatMap_cons, append_assoc] at hl
    obtain ⟨hl', hpeek⟩ := hl.peek _ redir_symbols
    -- the operator and the word
    obtain ⟨htok, hl1, -⟩ := Lexes.gettoken h0 (t := op.tok) hl'
    obtain ⟨hword, hl2, hpos⟩ := Lexes.gettoken h0 (t := .word q eq) hl1
    obtain ⟨hq, heq⟩ := hpos q eq rfl
    obtain ⟨s', hs', hl3⟩ := ih m hl2 (by simp at hn; omega) (Redir.node c ⟨op, q, eq⟩)
    refine ⟨s', ?_, hl3⟩
    unfold parseredirs
    have hh : heads [ch '<', ch '>'] (Redir.toks ⟨op, q, eq⟩ ++ (rs.flatMap Redir.toks ++ rest)) =
      true :=
      heads_redir_tok op _
    simp only [hpeek, hh, if_true, htok, hword, hq, heq, parseredirs_step]
    exact hs'

theorem parseback_complete (h0 : (0 : UInt8) ∉ line) (k n : Nat)
    (hl : Lexes line s (replicate k .amp ++ rest)) (hn : k < n)
    (hrest : heads [ch '&'] rest = false) (c : Cmd) :
    ∃ s', parseback line n c s = .ok (backs k c, s') ∧ Lexes line s' rest := by
  induction k generalizing s n c with
  | zero =>
    obtain ⟨m, rfl⟩ : ∃ m, n = m + 1 := ⟨n - 1, by omega⟩
    obtain ⟨hl', hpeek⟩ := hl.peek [ch '&'] (single_symbols (by simp [symbols]))
    rw [replicate_zero, nil_append] at hl' hpeek
    refine ⟨_, ?_, hl'⟩
    unfold parseback
    simp only [hpeek, hrest]
    rfl
  | succ k ih =>
    obtain ⟨m, rfl⟩ : ∃ m, n = m + 1 := ⟨n - 1, by omega⟩
    obtain ⟨hpeek, hl1⟩ := Lexes.take h0 (t := .amp) hl rfl
    obtain ⟨s', hs', hl2⟩ := ih m hl1 (by omega) (.back c)
    refine ⟨s', ?_, hl2⟩
    unfold parseback
    simp only [hpeek, if_true]
    exact hs'

theorem length_redirs_le (rs : List Redir) : rs.length ≤ (rs.flatMap Redir.toks).length := by
  induction rs with
  | nil => exact le_refl _
  | cons r rs ih =>
    simp only [flatMap_cons, length_append, Redir.toks, length_cons, length_nil]
    omega

/-- The next argument, or the end. -/
theorem heads_args (as : List Arg) (h : Follow .exec rest) :
    heads [ch '<', ch '>'] (as.flatMap Arg.toks ++ rest) = false := by
  cases as with
  | nil => exact h.not_redir
  | cons a as => rfl

theorem parseargs_complete (h0 : (0 : UInt8) ∉ line) (as : List Arg) (n : Nat)
    (hl : Lexes line s (as.flatMap Arg.toks ++ rest))
    (hn : (as.flatMap Arg.toks ++ rest).length < n) (hrest : Follow .exec rest)
    (args : List (Nat × Nat)) (hargs : args.length + as.length ≤ MAXARGS - 1) (rs : List Redir) :
    ∃ s', parseargs line n (wrap (.exec args) rs) args.length s =
        .ok (wrap (.exec (args ++ as.map Arg.pos)) (rs ++ as.flatMap Arg.redirs), s') ∧
      Lexes line s' rest := by
  induction as generalizing s n args rs with
  | nil =>
    obtain ⟨m, rfl⟩ : ∃ m, n = m + 1 := ⟨n - 1, by omega⟩
    rw [flatMap_nil, nil_append] at hl
    obtain ⟨hl', hpeek⟩ := hl.peek _ stop_symbols
    unfold parseargs
    simp only [hpeek, map_nil, append_nil, flatMap_nil]
    rcases hrest.stops with rfl | hstop
    · -- the end of the line
      obtain ⟨htok, hend⟩ := hl'.gettoken_nil
      refine ⟨line.length, ?_, .done⟩
      have hh : heads [ch '|', ch ')', ch '&', ch ';'] [] = false := rfl
      simp only [hh, Bool.false_eq_true, if_false, htok, if_true, hend]
    · refine ⟨_, ?_, hl'⟩
      simp only [hstop, if_true]
  | cons a as ih =>
    obtain ⟨m, rfl⟩ : ∃ m, n = m + 1 := ⟨n - 1, by omega⟩
    obtain ⟨q, eq, rs'⟩ := a
    rw [flatMap_cons, append_assoc] at hl hn
    simp only [Arg.toks, cons_append, length_cons, length_append] at hn
    obtain ⟨hl', hpeek⟩ := hl.peek _ stop_symbols
    obtain ⟨htok, hl1, hpos⟩ := Lexes.gettoken h0 (t := .word q eq) hl'
    obtain ⟨hq, heq⟩ := hpos q eq rfl
    have hlen := length_redirs_le rs'
    obtain ⟨s1, hs1, hl2⟩ := parseredirs_complete h0 rs' m hl1 (by omega) (heads_args as hrest)
      (wrap (.exec (args ++ [(q, eq)])) rs)
    simp only [length_cons] at hargs
    have hrec := ih m hl2 (by simp only [length_append]; omega) (args ++ [(q, eq)])
      (by simp; omega) (rs ++ rs')
    obtain ⟨s', hs', hl3⟩ := hrec
    refine ⟨s', ?_, hl3⟩
    unfold parseargs
    have hh : heads [ch '|', ch ')', ch '&', ch ';']
        (Arg.toks ⟨q, eq, rs'⟩ ++ (as.flatMap Arg.toks ++ rest)) = false := rfl
    have hcode : (Tok.word q eq).code = ch 'a' := rfl
    have hne : ch 'a' ≠ 0 := by decide
    have hmax : ¬ args.length + 1 ≥ MAXARGS := by
      unfold MAXARGS at hargs ⊢
      omega
    simp only [hpeek, hh, Bool.false_eq_true, if_false, htok, hcode, hne, ne_eq, not_true_eq_false,
      hmax, hq, heq, wrap_addArg, Cmd.addArg, hs1]
    rw [length_append, length_singleton, wrap_append] at hs'
    rw [hs']
    simp [Arg.pos]

/-- The fuel that suffices for a nonterminal. -/
def need : Kind → List Tok → Nat
  | .line, ts => 4 * ts.length + 4
  | .pipe, ts => 4 * ts.length + 3
  | .exec, ts => 4 * ts.length + 2

theorem exists_fuel {n : Nat} (h : need k ts ≤ n) : ∃ m, n = m + 1 :=
  Nat.exists_eq_succ_of_ne_zero (by cases k <;> simp only [need] at h <;> omega)

/-- The function of a nonterminal. -/
def parse (line : List UInt8) : Kind → Nat → Nat → Except Fail (Cmd × Nat)
  | .line => parseline line
  | .pipe => parsepipe line
  | .exec => parseexec line

/-- **What derives is parsed**, if what stands behind it can follow. -/
theorem Derives.parse (h0 : (0 : UInt8) ∉ line) {c : Cmd} (hd : Derives k ts c)
    (hl : Lexes line s (ts ++ rest)) (hrest : Follow k rest) (n : Nat)
    (hn : need k (ts ++ rest) ≤ n) : ∃ s', parse line k n s = .ok (c, s') ∧ Lexes line s' rest := by
  induction hd generalizing s rest n with
  | @line ts c k hd ih =>
    obtain ⟨m, rfl⟩ := exists_fuel hn
    rw [append_assoc] at hl hn
    simp only [need, length_append, length_replicate] at hn
    obtain ⟨s1, h1, hl1⟩ := ih hl (follow_amps k hrest.to_pipe) m
      (by simp only [need, length_append, length_replicate]; omega)
    obtain ⟨s2, h2, hl2⟩ := parseback_complete h0 k m hl1 (by omega) hrest.not_amp c
    obtain ⟨hl2', hpeek⟩ := hl2.peek [ch ';'] (single_symbols (by simp [symbols]))
    refine ⟨_, ?_, hl2'⟩
    change parsepipe line m s = _ at h1
    show parseline line (m + 1) s = _
    unfold parseline
    simp only [h1, h2, hpeek, hrest.not_semi, Bool.false_eq_true, if_false]
  | @list ts us c d k hd hd' ih ih' =>
    obtain ⟨m, rfl⟩ := exists_fuel hn
    simp only [append_assoc, cons_append] at hl hn
    simp only [need, length_append, length_replicate, length_cons] at hn
    obtain ⟨s1, h1, hl1⟩ := ih hl (follow_amps k trivial) m
      (by simp only [need, length_append, length_replicate, length_cons]; omega)
    obtain ⟨s2, h2, hl2⟩ := parseback_complete h0 k m hl1 (by omega) rfl c
    obtain ⟨hpeek, hl3⟩ := hl2.take h0 rfl
    obtain ⟨s3, h3, hl4⟩ := ih' hl3 hrest m (by simp only [need, length_append]; omega)
    refine ⟨s3, ?_, hl4⟩
    change parsepipe line m s = _ at h1
    change parseline line m _ = _ at h3
    show parseline line (m + 1) s = _
    unfold parseline
    simp only [h1, h2, hpeek, if_true, h3]
  | @single ts c hd ih =>
    obtain ⟨m, rfl⟩ := exists_fuel hn
    obtain ⟨s1, h1, hl1⟩ := ih hl hrest.to_exec m (by simp only [need] at hn ⊢; omega)
    obtain ⟨hl1', hpeek⟩ := hl1.peek [ch '|'] (single_symbols (by simp [symbols]))
    refine ⟨_, ?_, hl1'⟩
    change parseexec line m s = _ at h1
    show parsepipe line (m + 1) s = _
    unfold parsepipe
    simp only [h1, hpeek, hrest.not_bar, Bool.false_eq_true, if_false]
  | @pipe ts us c d hd hd' ih ih' =>
    obtain ⟨m, rfl⟩ := exists_fuel hn
    simp only [append_assoc, cons_append] at hl hn
    simp only [need, length_append, length_cons] at hn
    obtain ⟨s1, h1, hl1⟩ := ih hl trivial m
      (by simp only [need, length_append, length_cons]; omega)
    obtain ⟨hpeek, hl2⟩ := hl1.take h0 rfl
    obtain ⟨s2, h2, hl3⟩ := ih' hl2 hrest m (by simp only [need, length_append]; omega)
    refine ⟨s2, ?_, hl3⟩
    change parseexec line m s = _ at h1
    change parsepipe line m _ = _ at h2
    show parsepipe line (m + 1) s = _
    unfold parsepipe
    simp only [h1, hpeek, if_true, h2]
  | @block ts c rs hd ih =>
    obtain ⟨m, rfl⟩ : ∃ m, n = m + 2 := ⟨n - 2, by simp only [need] at hn; omega⟩
    simp only [append_assoc, cons_append] at hl hn
    simp only [need, length_append, length_cons] at hn
    obtain ⟨hl', hpeek⟩ := hl.peek [ch '('] (single_symbols (by simp [symbols]))
    obtain ⟨hpeek', hl1⟩ := hl'.take h0 rfl
    obtain ⟨s1, h1, hl2⟩ := ih hl1 trivial m
      (by simp only [need, length_append, length_cons]; omega)
    obtain ⟨hpeek2, hl3⟩ := hl2.take h0 rfl
    have hlen := length_redirs_le rs
    obtain ⟨s2, h2, hl4⟩ := parseredirs_complete h0 rs m hl3 (by omega) hrest.not_redir c
    refine ⟨s2, ?_, hl4⟩
    change parseline line m _ = _ at h1
    show parseexec line (m + 2) s = _
    have hh : ∀ us, heads [ch '('] (Tok.lpar :: us) = true := fun _ => rfl
    unfold parseexec
    simp only [hpeek, hh, if_true]
    unfold parseblock
    simp only [hpeek', if_true, h1, hpeek2, h2]
  | simple rs as hmax =>
    obtain ⟨m, rfl⟩ := exists_fuel hn
    rw [append_assoc] at hl hn
    simp only [need, length_append] at hn
    obtain ⟨hl', hpeek⟩ := hl.peek [ch '('] (single_symbols (by simp [symbols]))
    have hlen := length_redirs_le rs
    obtain ⟨s1, h1, hl1⟩ :=
      parseredirs_complete h0 rs m hl' (by omega) (heads_args as hrest) (.exec [])
    obtain ⟨s2, h2, hl2⟩ := parseargs_complete h0 as m hl1 (by simp only [length_append]; omega)
      hrest [] (by simpa using hmax) rs
    refine ⟨s2, ?_, hl2⟩
    show parseexec line (m + 1) s = _
    have hh : heads [ch '('] (rs.flatMap Redir.toks ++ (as.flatMap Arg.toks ++ rest)) = false := by
      cases rs with
      | nil =>
        cases as with
        | nil => cases rest with
          | nil => rfl
          | cons t us => cases t <;> first | rfl | exact hrest.elim
        | cons a as => rfl
      | cons r rs => obtain ⟨op, q, eq⟩ := r; cases op <;> rfl
    unfold parseexec
    simp only [hpeek, hh, Bool.false_eq_true, if_false, h1]
    exact h2

end Completeness

/-! ## 6. The parser accepts exactly its grammar -/

section Accepts

variable {line : List UInt8} {s : Nat} {ts us : List Tok} {cmd : Cmd}

section

variable (h0 : (0 : UInt8) ∉ line)
include h0

/-- Every character starts a token or is skipped. -/
theorem exists_lexes (n : Nat) (hn : line.length = s + n) :
    ∃ ts, Lexes line s ts ∧ ts.length ≤ n := by
  -- the induction is on the number of characters that are left
  induction n using Nat.strong_induction_on generalizing s with
  | _ n ih =>
    rcases Nat.eq_zero_or_pos n with rfl | hpos
    · rw [Nat.add_zero] at hn
      exact ⟨[], hn ▸ .done, le_refl _⟩
    have hne : chr line s ≠ 0 := chr_ne_zero h0 (by omega)
    obtain ⟨ts, hts, hlen⟩ := ih (n - 1) (by omega) (s := s + 1) (by omega)
    by_cases hsp : chr line s ∈ whitespace
    · exact ⟨ts, .space hsp hts, by omega⟩
    by_cases hgg : chr line s = ch '>' ∧ chr line (s + 1) = ch '>'
    · -- `>>` is one token
      obtain ⟨h1, h2⟩ := hgg
      have hlt : s + 1 < line.length := lt_of_chr_ne_zero (by rw [h2]; decide)
      obtain ⟨us, hus, hlen'⟩ := ih (n - 2) (by omega) (s := s + 2) (by omega)
      exact ⟨_, .append h1 h2 hus, by rw [length_cons]; omega⟩
    by_cases hsym : chr line s ∈ symbols
    · obtain ⟨t, ht, hch⟩ : ∃ t : Tok, t ≠ .append ∧ t.char = some (chr line s) := by
        simp only [symbols, mem_cons, not_mem_nil, or_false] at hsym
        rcases hsym with h | h | h | h | h | h | h <;> rw [h]
        · exact ⟨.lt, by decide, rfl⟩
        · exact ⟨.bar, by decide, rfl⟩
        · exact ⟨.gt, by decide, rfl⟩
        · exact ⟨.amp, by decide, rfl⟩
        · exact ⟨.semi, by decide, rfl⟩
        · exact ⟨.lpar, by decide, rfl⟩
        · exact ⟨.rpar, by decide, rfl⟩
      refine ⟨t :: ts, .symbol t ht hch ?_ hts, by rw [length_cons]; omega⟩
      intro hgt h2
      subst hgt
      exact hgg ⟨(Option.some.inj hch).symm, h2⟩
    · -- a word, up to where the scanner stops
      have hword : ∀ i, i < line.length →
          ((!strchr whitespace (chr line i) && !strchr symbols (chr line i)) = true ↔
            IsWord (chr line i)) := by
        intro i hi
        simp [IsWord, strchr, chr_ne_zero h0 hi]
      obtain ⟨h1, h2, h3, h4⟩ := skipWhile_spec
        (fun c => !strchr whitespace c && !strchr symbols c) _ rfl (show s ≤ line.length by omega)
      change s ≤ skipWord line s at h1
      change skipWord line s ≤ line.length at h2
      have hend : ¬ IsWord (chr line (skipWord line s)) := by
        rcases h4 with h4 | h4
        · change skipWord line s = line.length at h4
          rw [chr_of_le (by omega)]
          exact fun h => h.1 rfl
        · intro hw
          have := (hword _ (lt_of_chr_ne_zero hw.1)).mpr hw
          exact absurd this (by simpa [skipWord] using h4)
      have hlt : s < skipWord line s := by
        rcases Nat.eq_or_lt_of_le h1 with heq | hlt
        · rw [← heq] at hend
          exact absurd ⟨hne, hsp, hsym⟩ hend
        · exact hlt
      obtain ⟨us, hus, hlen'⟩ := ih (line.length - skipWord line s) (by omega)
        (s := skipWord line s) (by omega)
      refine ⟨.word s (skipWord line s) :: us, .word hlt ?_ hend hus, by rw [length_cons]; omega⟩
      intro i hi hilt
      exact (hword i (by omega)).mp (h3 i hi hilt)

omit h0 in
/-- The code of a token, and for a word its positions, tell the token. -/
theorem Tok.eq_of_code {t u : Tok} (h : t.code = u.code)
    (hw : ∀ q eq q' eq', t = .word q eq → u = .word q' eq' → q = q' ∧ eq = eq') : t = u := by
  cases t with
  | word q eq =>
    obtain ⟨q', eq', rfl⟩ := Tok.eq_word h.symm
    obtain ⟨rfl, rfl⟩ := hw q eq q' eq' rfl rfl
    rfl
  | _ => cases u <;> first | rfl | exact absurd h (by simp only [Tok.code]; decide)

/-- A line has one sequence of tokens. -/
theorem Lexes.unique (h : Lexes line s ts) (h' : Lexes line s us) : ts = us := by
  induction ts generalizing s us with
  | nil =>
    cases us with
    | nil => rfl
    | cons u us =>
      have hcode := (h'.gettoken h0).1
      rw [h.gettoken_nil.1] at hcode
      exact absurd hcode.symm (Tok.code_ne_zero u)
  | cons t ts ih =>
    obtain ⟨hcode, hl, hpos⟩ := h.gettoken h0
    cases us with
    | nil =>
      rw [h'.gettoken_nil.1] at hcode
      exact absurd hcode.symm (Tok.code_ne_zero t)
    | cons u us =>
      obtain ⟨hcode', hl', hpos'⟩ := h'.gettoken h0
      have htu : t = u := by
        apply Tok.eq_of_code (hcode.symm.trans hcode')
        intro q eq q' eq' ht hu
        obtain ⟨h1, h2⟩ := hpos q eq ht
        obtain ⟨h3, h4⟩ := hpos' q' eq' hu
        exact ⟨h1.symm.trans h3, h2.symm.trans h4⟩
      rw [htu, ih hl hl']

/-- The last test of `parsecmd`: only blanks are left. -/
theorem Lexes.peek_end (h : Lexes line s ts) : (Sh.peek line s []).2 = line.length ↔ ts = [] := by
  have hl := (h.peek [] (by simp)).1
  constructor
  · intro heq
    rw [heq] at hl
    exact hl.unique h0 .done
  · intro hts
    subst hts
    obtain ⟨h1, h2⟩ := h.skipSpace
    exact (h1.scan_nil h2).1

/-- The tree that `parsecmd` returns. -/
theorem parsecmd_ok (hts : Lexes line 0 ts) {fuel : Nat}
    (hf : 4 * ts.length + 4 ≤ fuel) {buf : List UInt8} (hp : parsecmd line fuel = .ok (cmd, buf)) :
    Derives .line ts cmd ∧ buf = nulterminate cmd (line ++ [0]) := by
  have hsound := (parses h0 fuel).ofLine 0 ts hts hf
  unfold parsecmd at hp
  split at hp
  · cases hp
  · next c s he =>
    obtain ⟨us, rest, rfl, hd, hl⟩ := hsound.of_ok he
    split at hp
    · cases hp
    · next hend =>
      -- nothing is left over
      have hrest : rest = [] := (hl.peek_end h0).mp (not_not.mp hend)
      subst hrest
      cases hp
      rw [append_nil]
      exact ⟨hd, rfl⟩

end

/-- **The shell parser accepts exactly its grammar.**  A line has one sequence of
    tokens; `parsecmd` returns on it, and it returns a tree exactly if that is
    the tree of a derivation of these tokens. -/
theorem parsecmd_accepts_grammar (line : List UInt8) (h0 : (0 : UInt8) ∉ line) :
    ∃ ts, (∀ us, Lexes line 0 us ↔ us = ts) ∧
      ∀ fuel, 4 * line.length + 4 ≤ fuel →
        parsecmd line fuel ≠ .error .fuel ∧
        ∀ cmd, (∃ buf, parsecmd line fuel = .ok (cmd, buf)) ↔ Derives .line ts cmd := by
  obtain ⟨ts, hts, hlen⟩ := exists_lexes (s := 0) h0 line.length (by omega)
  refine ⟨ts, fun us => ⟨fun h => h.unique h0 hts, fun h => h ▸ hts⟩, ?_⟩
  intro fuel hf
  constructor
  · intro hp
    have hsound := (parses h0 fuel).ofLine 0 ts hts (by omega)
    unfold parsecmd at hp
    split at hp
    · next e he =>
      injection hp with hp
      exact hsound.of_error he hp
    · split at hp
      · injection hp with hp
        cases hp
      · cases hp
  · intro cmd
    constructor
    · intro h
      obtain ⟨buf, hp⟩ := h
      exact (parsecmd_ok h0 hts (by omega) hp).1
    · intro hd
      have hall : Lexes line 0 (ts ++ []) := by rwa [append_nil]
      obtain ⟨s', hs', hl'⟩ := hd.parse h0 hall trivial fuel
        (by simp only [need, append_nil]; omega)
      change parseline line fuel 0 = _ at hs'
      refine ⟨nulterminate cmd (line ++ [0]), ?_⟩
      unfold parsecmd
      simp only [hs', (hl'.peek_end h0).mpr rfl, ne_eq, not_true_eq_false, if_false]

/-- `a|(b>f)&` -/
def piped : List UInt8 := [ch 'a', ch '|', ch '(', ch 'b', ch '>', ch 'f', ch ')', ch '&']

/-- The tree of `a|(b>f)&`. -/
def pipedTree : Cmd :=
  .back (.pipe (.exec [(0, 1)]) (.redir (.exec [(3, 4)]) 5 6 (O_WRONLY ||| O_CREATE ||| O_TRUNC) 1))

theorem parsecmd_accepts_grammar_piped :
    (0 : UInt8) ∉ piped ∧ ∃ ts, Lexes piped 0 ts ∧ Derives .line ts pipedTree := by
  have h0 : (0 : UInt8) ∉ piped := by decide
  refine ⟨h0, ?_⟩
  obtain ⟨ts, hts, hp⟩ := parsecmd_accepts_grammar piped h0
  refine ⟨ts, (hts ts).mpr rfl, ((hp 36 (by decide)).2 pipedTree).mp ?_⟩
  exact ⟨nulterminate pipedTree (piped ++ [0]), by decide +kernel⟩

end Accepts

/-! ## 7. Strings -/

section Strings

variable {line : List UInt8} {s : Nat} {ts : List Tok} {cmd : Cmd} {w : Nat × Nat} {rs : List Redir}

/-- The words of a tree. -/
def Cmd.words : Cmd → List (Nat × Nat)
  | .exec args => args
  | .redir c file efile _ _ => c.words ++ [(file, efile)]
  | .pipe l r => l.words ++ r.words
  | .list l r => l.words ++ r.words
  | .back c => c.words

/-- A NUL-terminated string at `q`. -/
def IsString (buf : List UInt8) (q : Nat) (text : List UInt8) : Prop :=
  text ++ [0] <+: buf.drop q ∧ 0 ∉ text

/-- The NULs of a list of words. -/
def terminate (ws : List (Nat × Nat)) (buf : List UInt8) : List UInt8 :=
  ws.foldl (fun buf w => buf.set w.2 0) buf

theorem nulterminate_eq (c : Cmd) (buf : List UInt8) :
    nulterminate c buf = terminate c.words buf := by
  induction c generalizing buf with
  | exec args => rfl
  | redir c file efile mode fd ih => simp [nulterminate, Cmd.words, terminate, ih]
  | pipe l r ihl ihr => simp [nulterminate, Cmd.words, terminate, ihl, ihr]
  | list l r ihl ihr => simp [nulterminate, Cmd.words, terminate, ihl, ihr]
  | back c ih => simp [nulterminate, Cmd.words, ih]

/-- The ends of the words are NULs, and nothing else changes. -/
theorem getElem?_terminate (ws : List (Nat × Nat)) (buf : List UInt8) (i : Nat) :
    (terminate ws buf)[i]? = buf[i]?.map fun c => if i ∈ ws.map Prod.snd then 0 else c := by
  induction ws generalizing buf with
  | nil => simp [terminate]
  | cons w ws ih =>
    refine (ih (buf.set w.2 0)).trans ?_
    rw [getElem?_set]
    by_cases hwi : w.2 = i
    · subst hwi
      by_cases hlt : w.2 < buf.length
      · simp [hlt]
      · simp [hlt]
    · have hmem : i ∈ (w :: ws).map Prod.snd ↔ i ∈ ws.map Prod.snd := by simp [Ne.symm hwi]
      simp only [if_neg hwi, hmem]

/-- The words of the tree are words of the line. -/
theorem mem_wrap_words {c : Cmd} (h : w ∈ (wrap c rs).words) :
    w ∈ c.words ∨ ∃ r ∈ rs, w = (r.q, r.eq) := by
  induction rs generalizing c with
  | nil => exact .inl h
  | cons r rs ih =>
    rcases ih (c := r.node c) h with h | ⟨r', hr', rfl⟩
    · rw [Redir.node, Cmd.words, mem_append, mem_singleton] at h
      exact h.imp_right fun h => ⟨r, mem_cons_self, h⟩
    · exact .inr ⟨r', mem_cons_of_mem _ hr', rfl⟩

theorem mem_redir_toks {r : Redir} (h : r ∈ rs) : Tok.word r.q r.eq ∈ rs.flatMap Redir.toks :=
  mem_flatMap.mpr ⟨r, h, by simp [Redir.toks]⟩

theorem words_backs (n : Nat) (c : Cmd) : (backs n c).words = c.words := by
  induction n generalizing c with
  | zero => rfl
  | succ n ih => exact ih (.back c)

theorem Derives.word_mem {k : Kind} (hd : Derives k ts cmd) (hw : w ∈ cmd.words) :
    Tok.word w.1 w.2 ∈ ts := by
  induction hd with
  | line n hd ih =>
    rw [words_backs] at hw
    exact mem_append_left _ (ih hw)
  | list n hd hd' ih ih' =>
    rw [Cmd.words, words_backs, mem_append] at hw
    rcases hw with hw | hw
    · exact mem_append_left _ (mem_append_left _ (ih hw))
    · exact mem_append_right _ (mem_cons_of_mem _ (ih' hw))
  | single hd ih => exact ih hw
  | pipe hd hd' ih ih' =>
    rw [Cmd.words, mem_append] at hw
    rcases hw with hw | hw
    · exact mem_append_left _ (ih hw)
    · exact mem_append_right _ (mem_cons_of_mem _ (ih' hw))
  | block rs hd ih =>
    rcases mem_wrap_words hw with hw | ⟨r, hr, rfl⟩
    · exact mem_append_left _ (mem_cons_of_mem _ (ih hw))
    · exact mem_append_right _ (mem_cons_of_mem _ (mem_redir_toks hr))
  | simple rs args hmax =>
    rcases mem_wrap_words hw with hw | ⟨r, hr, rfl⟩
    · obtain ⟨a, ha, rfl⟩ := mem_map.mp hw
      exact mem_append_right _ (mem_flatMap.mpr ⟨a, ha, mem_cons_self⟩)
    · rcases mem_append.mp hr with hr | hr
      · exact mem_append_left _ (mem_redir_toks hr)
      · obtain ⟨a, ha, hra⟩ := mem_flatMap.mp hr
        have := mem_cons_of_mem (Tok.word a.q a.eq) (mem_redir_toks hra)
        exact mem_append_right _ (mem_flatMap.mpr ⟨a, ha, this⟩)

/-- A word token is a maximal word. -/
theorem Lexes.word_mem (hl : Lexes line s ts) (hw : Tok.word w.1 w.2 ∈ ts) :
    w.1 < w.2 ∧ (∀ i, w.1 ≤ i → i < w.2 → IsWord (chr line i)) ∧ ¬ IsWord (chr line w.2) := by
  induction hl with
  | done => cases hw
  | space _ _ ih => exact ih hw
  | symbol t _ hch _ _ ih =>
    rcases mem_cons.mp hw with rfl | hw
    · cases hch
    · exact ih hw
  | append _ _ _ ih =>
    rcases mem_cons.mp hw with h | hw
    · cases h
    · exact ih hw
  | word hse hword hend _ ih =>
    rcases mem_cons.mp hw with h | hw
    · injection h with hq heq
      rw [hq, heq]
      exact ⟨hse, hword, hend⟩
    · exact ih hw

/-- **After `nulterminate` the words are strings**: each one is the text of its
    token, whatever stands next to it and in whatever order the NULs are written. -/
theorem parsecmd_words (h0 : (0 : UInt8) ∉ line) {fuel : Nat} (hf : 4 * line.length + 4 ≤ fuel)
    {buf : List UInt8} (hp : parsecmd line fuel = .ok (cmd, buf)) (hw : w ∈ cmd.words) :
    w.1 < w.2 ∧ w.2 ≤ line.length ∧ IsString buf w.1 ((line.drop w.1).take (w.2 - w.1)) := by
  obtain ⟨ts, hts, hlen⟩ := exists_lexes (s := 0) h0 line.length (by omega)
  obtain ⟨hd, rfl⟩ := parsecmd_ok h0 hts (by omega) hp
  obtain ⟨hlt, hin, -⟩ := hts.word_mem (hd.word_mem hw)
  have hle : w.2 ≤ line.length := by
    have := lt_of_chr_ne_zero (hin (w.2 - 1) (by omega) (by omega)).1
    omega
  refine ⟨hlt, hle, prefix_iff_getElem?.mpr fun i hi => ?_,
    fun h => h0 (mem_of_mem_drop (mem_of_mem_take h))⟩
  simp only [length_append, length_take, length_drop, length_singleton] at hi
  rw [nulterminate_eq, getElem?_drop, getElem?_terminate]
  by_cases hend : i < w.2 - w.1
  · -- the words end outside of words, so their characters stay
    have hno : w.1 + i ∉ cmd.words.map Prod.snd := by
      intro hmem
      obtain ⟨v, hv, heq⟩ := mem_map.mp hmem
      refine (hts.word_mem (hd.word_mem hv)).2.2 ?_
      rw [heq]
      exact hin _ (by omega) (by omega)
    have hil : w.1 + i < line.length := by omega
    have hit : i < ((line.drop w.1).take (w.2 - w.1)).length := by
      rw [length_take, length_drop]
      omega
    rw [getElem?_append_left hil, getElem?_eq_getElem hil, Option.map_some, if_neg hno,
      getElem_append_left hit, getElem_take, getElem_drop]
  · obtain rfl : i = w.2 - w.1 := by omega
    have hmem : w.2 ∈ cmd.words.map Prod.snd := mem_map_of_mem hw
    have hlt' : w.2 < (line ++ [0]).length := by
      rw [length_append, length_singleton]
      omega
    rw [show w.1 + (w.2 - w.1) = w.2
      by omega, getElem?_eq_getElem hlt', Option.map_some, if_pos hmem]
    simp

theorem parsecmd_words_piped : IsString (nulterminate pipedTree (piped ++ [0])) 5 [ch 'f'] :=
  (parsecmd_words (w := (5, 6)) (show (0 : UInt8) ∉ piped by decide)
    (show 4 * piped.length + 4 ≤ 36 by decide) (show parsecmd piped 36 = .ok
    (pipedTree, nulterminate pipedTree (piped ++ [0])) by decide +kernel) (by decide)).2.2

end Strings

end NoviceKernel.Sh
