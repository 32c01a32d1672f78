/-
What the locks protect. fcntl locks byte i for index i while g and s access byte i - 1, but a lock on an index
guards its character all the same, among processes that set a character only where they have locked its index for
writing. Nothing in the code demands that.
-/
import Sysopy.FileLocks.Listing

namespace Sysopy.FileLocks

open Sysopy.CText Sysopy.Conc Sysopy.Files

variable {ι : Type*} [DecidableEq ι]

section Step

variable {p self : ι} {g g' : Shared ι} {l : Session ι} {proc proc' : Proc ι} {c : Command} {i : ℕ}

end Step

section Runs

variable {p : ι} {s s' : Pool ι (Shared ι) (Proc ι)} {i : ℕ}

end Runs

/-! The first process reads the first character, the second one sets the other one. -/

end Sysopy.FileLocks
