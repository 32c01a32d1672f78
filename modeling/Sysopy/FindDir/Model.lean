/-
The two searches of cw02/zad2/main.c for the files with given permissions: `find_dir`, which reads
the directories itself, and `process_file`, which `ftw` calls. A line they print is kept with the
pathname under which its file was found.
-/
import Sysopy.CText.Decimal
import Sysopy.Files.Tree

namespace Sysopy.FindDir

open Sysopy.CText Sysopy.Files

/-- `sprintf(file_permissions, "%o", st_mode & (S_IRWXU | S_IRWXG | S_IRWXO))`. -/
def filePermissions (st : Stat) : List Char := Nat.toDigits 8 (st.mode &&& 0o777)

/-- What lies behind the array: gcc puts `file_path` there, or leaves a gap that nothing uses. -/
inductive Behind where
  | filePath | gap
deriving DecidableEq, Repr

/-- What is printed of a file: a name, the size as an int and when it was last read; `found` is the
pathname it was found under. -/
structure Line where
  found : Path
  name : Path
  size : ℤ
  accessed : ℤ
deriving DecidableEq, Repr

/-- The buffer `file_path` and what `snprintf` writes into it. -/
def filePathSize : ℕ := 255

def filePath (dir : Path) (d_name : CStr) : Path := (dir ++ '/' :: d_name.1).take (filePathSize - 1)

section FindDir

-- `stack` is what `file_stat` holds before the call of `stat`, and after one that fails.
variable (fs : FileSystem) (behind : Behind) (stack : Path → Stat) (permissions : CStr)

end FindDir

/-- The files that lines are about. -/
def files (fs : FileSystem) (lines : List Line) : List Path := lines.map fun line => fs.realpath line.found

end Sysopy.FindDir
