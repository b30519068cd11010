import Mathlib.Algebra.Order.Ring.Nat

namespace Xv6

/-- Constants of kernel/param.h. -/
def NPROC : Nat := 64
def NOFILE : Nat := 16
def MAXOPBLOCKS : Nat := 10
def LOGSIZE : Nat := MAXOPBLOCKS * 3

instance : NeZero NPROC := ⟨by decide⟩

/-- mkfs.c gives the log exactly LOGSIZE blocks, the header included, from block 2 on. -/
def nlog : Nat := LOGSIZE
def logstart : Nat := 2

end Xv6
