/-
  Constants that several parts of the kernel share (`kernel/param.h`, and the page size of
  `kernel/riscv.h`).
-/
import Mathlib.Algebra.NeZero

namespace Xv6

abbrev PGSIZE : Nat := 4096

/-- Maximum number of processes. -/
abbrev NPROC : Nat := 64

/-- Maximum number of CPUs. -/
abbrev NCPU : Nat := 8

/-- Open files per process. -/
abbrev NOFILE : Nat := 16

/-- Open files per system. -/
abbrev NFILE : Nat := 100

/-- Maximum major device number. -/
abbrev NDEV : Nat := 10

/-! The sizes of the tables whose indices are written as numerals. -/

instance neZero1 : @NeZero Nat Zero.ofOfNat0 1 := ⟨by decide⟩

instance neZero2 : @NeZero Nat Zero.ofOfNat0 2 := ⟨by decide⟩

instance neZero3 : @NeZero Nat Zero.ofOfNat0 3 := ⟨by decide⟩

instance neZero30 : @NeZero Nat Zero.ofOfNat0 30 := ⟨by decide⟩

instance neZero64 : @NeZero Nat Zero.ofOfNat0 NPROC := ⟨by decide⟩

instance neZero128 : @NeZero Nat Zero.ofOfNat0 128 := ⟨by decide⟩

instance neZero512 : @NeZero Nat Zero.ofOfNat0 512 := ⟨by decide⟩

end Xv6
