import Mathlib.Tactic.Common

/-! # Kernel parameters

    Constants of `param.h` and `fs.h`, and the ways a kernel computation can
    stop without returning. -/

namespace NoviceKernel

/-- `NPROC`: maximum number of processes. -/
def NPROC : Nat := 64

/-- `MAXOPBLOCKS`: max # of blocks any FS op writes. -/
def MAXOPBLOCKS : Nat := 10

/-- `LOGSIZE`: max data blocks in on-disk log. -/
def LOGSIZE : Nat := MAXOPBLOCKS * 3

/-- `NBUF`: size of disk block cache. -/
def NBUF : Nat := MAXOPBLOCKS * 3

/-- `BSIZE`: block size in bytes. -/
def BSIZE : Nat := 1024

/-- Why a kernel computation did not return: `panic(msg)`, or a `sleep` that
    only another process can end. -/
inductive Stop where
  | panic (msg : String)
  | sleep
  deriving DecidableEq

end NoviceKernel
