import Mathlib

/-!
# Fd sets

The three conditions of `select` are treated alike, so they are an index here, and an `fd_set` is a
finite set of fds.
-/

namespace Dmm.Select

/-- What an fd can be ready for. -/
inductive Cond
  | read
  | write
  | except
  deriving DecidableEq, Repr

/-- Three sets of fds. -/
abbrev FdSets := Cond → Finset Nat

/-- The number of bits that are set. -/
def FdSets.size (sets : FdSets) : Nat :=
  (sets .read).card + (sets .write).card + (sets .except).card

/-- `__FD_SETSIZE` -/
def fdSetsize : Nat := 1024

end Dmm.Select
