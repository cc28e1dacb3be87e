import NoviceKernel.Fs

/-! # Names, directory entries and paths

    The string functions that directories use, `struct dirent` as bytes of a
    directory, and `skipelem`.  A string is the list of its bytes up to the NUL;
    a name in a `char[DIRSIZ]` has a NUL only if it is shorter than `DIRSIZ`. -/

namespace NoviceKernel.FS

/-! ## Constants (`fs.h`, `stat.h`, `param.h`) -/

/-- Root i-number. -/
def ROOTINO : Nat := 1

/-- Length of a name in a directory. -/
def DIRSIZ : Nat := 14

/-- Maximum file path name. -/
def MAXPATH : Nat := 128

def T_DIR : Nat := 1

def T_FILE : Nat := 2

def T_DEVICE : Nat := 3

def T_SYMLINK : Nat := 4

abbrev Bytes := List UInt8

/-! ## Strings (`string.c`) -/

/-- The string that starts a buffer: its bytes up to the first NUL. -/
def cstring (buf : Bytes) : Bytes := buf.takeWhile (· ≠ 0)

def strncmp : Bytes → Bytes → Nat → Int
  | _, _, 0 => 0
  | p, q, n + 1 =>
    if p.headD 0 ≠ 0 ∧ p.headD 0 = q.headD 0 then strncmp p.tail q.tail n
    else ((p.headD 0).toNat : Int) - (q.headD 0).toNat

/-- The `n` bytes that `strncpy(s, t, n)` stores. -/
def strncpy : Bytes → Nat → Bytes
  | _, 0 => []
  | t, n + 1 =>
    if t.headD 0 = 0 then List.replicate (n + 1) 0 else t.headD 0 :: strncpy t.tail n

def namecmp (s t : Bytes) : Int := strncmp s t DIRSIZ

/-! ## Directory entries -/

/-- `struct dirent`. -/
structure Dirent where
  inum : Nat
  name : Bytes

namespace Dirent

/-- `sizeof(struct dirent)`. -/
def SIZE : Nat := 2 + DIRSIZ

/-- The entry that the bytes `bs` are. -/
def load (bs : Bytes) : Dirent where
  inum := (bs.getD 0 0).toNat + 256 * (bs.getD 1 0).toNat
  name := (List.range DIRSIZ).map fun i => bs.getD (2 + i) 0

/-- The bytes of an entry; `inum` is a `ushort`. -/
def bytes (de : Dirent) : Bytes :=
  UInt8.ofNat de.inum :: UInt8.ofNat (de.inum / 256) :: de.name

end Dirent

/-- `"."`. -/
def dot : Bytes := [46]

/-- `".."`. -/
def dotdot : Bytes := [46, 46]

/-! ## Paths -/

/-- `'/'`. -/
def SLASH : UInt8 := 47

/-- The rest of the path and the name of the element that was skipped. -/
def skipelem (path : Bytes) : Option (Bytes × Bytes) :=
  match path.dropWhile (· == SLASH) with
  | [] => none
  | c :: s =>
    let rest := (c :: s).dropWhile (· != SLASH)
    let name := ((c :: s).takeWhile (· != SLASH)).take DIRSIZ
    some (rest.dropWhile (· == SLASH), name)

end NoviceKernel.FS
