import Mathlib.Algebra.Group.Int.Defs
import Mathlib.Algebra.Group.Nat.Defs
import Mathlib.Algebra.GroupWithZero.Nat
import Mathlib.Data.Fintype.Basic

/-!
# Limits and machine integers

The constants of `param.h` that the models use, and C's `int`.  A `uint` is a natural number
below `2 ^ 32`; where the source computes on one, the model reduces modulo `2 ^ 32`.
-/

namespace Xv6

/-- Maximum number of processes. -/
def NPROC : ℕ := 64

/-- Timer ticks after which the running process releases the CPU. -/
def QUANTUM : ℕ := 3

/-- Age from which a waiting process counts as old. -/
def AGELIMIT : ℕ := 5

/-- Number of priority levels. -/
def PLEVELS : ℕ := 4

/-- Starting priority level of all processes. -/
def DEFAULTPLEVEL : ℤ := 0

/-- Semaphores one process can hold. -/
def PROCMAXSEM : ℕ := 5

/-- Semaphores of the whole system. -/
def SYSMAXSEM : ℕ := 20

/-- Maximum number of blocks that one file-system operation writes. -/
def MAXOPBLOCKS : ℕ := 10

/-- Maximum number of data blocks in the on-disk log. -/
def LOGSIZE : ℕ := MAXOPBLOCKS * 3

/-- Size of the disk block cache. -/
def NBUF : ℕ := MAXOPBLOCKS * 3

/-- Open files per process. -/
def NOFILE : ℕ := 16

/-- Open files of the whole system. -/
def NFILE : ℕ := 100

/-- Maximum number of arguments of `exec`. -/
def MAXARG : ℕ := 32

theorem nbuf_pos : 0 < NBUF := by decide

-- so that the entries of the tables can be written as numerals
instance : NeZero NPROC := ⟨by decide⟩

instance : NeZero NBUF := ⟨by decide⟩

instance : NeZero NOFILE := ⟨by decide⟩

instance : NeZero NFILE := ⟨by decide⟩

/-- An index into `ptable.proc`, standing for a non-null `struct proc *`. -/
abbrev Slot := Fin NPROC

/-- What a C `int` holds after the exact result `x` is stored in it: two's complement in 32
bits. -/
def int32 (x : ℤ) : ℤ := x.bmod (2 ^ 32)

theorem int32_eq_self {x : ℤ} (h1 : -2 ^ 31 ≤ x) (h2 : x < 2 ^ 31) : int32 x = x := by
  rw [int32, Int.bmod_eq_of_le_mul_two] <;> omega

end Xv6
