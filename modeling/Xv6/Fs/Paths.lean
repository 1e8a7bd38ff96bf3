import Xv6.Fs.Failing

/-!
# Path names

A path name is a string of bytes that ends at its first zero.  `skipelem` takes one element off it,
and `namex` walks along the elements.  The elements are what stands between the slashes, without the
empty pieces, cut to the length of a name; and `namex` ends where `follow` ends along them.
-/

namespace Xv6.Fs

open Lib

section Pieces

variable {path e r : Name} {names : List Name}

end Pieces

/-- The references that the result of `namex` holds. -/
def holding (r : Option (Icache × Name)) : Icache → ℕ := r.elim 0 fun x => Pi.single x.1 1

variable {s : State} {c : Icache → ℕ} {cwd : Icache}

end Xv6.Fs
