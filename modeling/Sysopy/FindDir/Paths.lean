/-
The pathnames that find_dir passes on. It cuts `dir/d_name` to the buffer `file_path`; as long as all of them fit,
it opens every directory of a tree once and comes to an end. A pathname that is cut names something else, and may be
that of the directory itself, which is then searched without end. Where `file_path` lies behind `file_permissions`,
three digits of permissions leave an empty pathname, which names nothing.
-/
import Sysopy.FindDir.SameFiles

namespace Sysopy.FindDir

open Sysopy.CText Sysopy.Files

/-! ## The calls of find_dir -/

/-- A call that `find_dir` makes on a pathname; the last two with the directory and the entry it has just read. -/
inductive Call where
  | opendir (dir : Path)
  | stat (dir : Path) (d_name : CStr) (path : Path)
  | find_dir (dir : Path) (d_name : CStr) (path : Path)

section Calls

variable (fs : FileSystem) (behind : Behind) (stack : Path → Stat)

end Calls

def Call.opened : Call → Option Path
  | .opendir dir => some dir
  | _ => none

/-- The directories that are opened. -/
def opened (calls : List Call) : List Path := calls.filterMap Call.opened

/-- What is passed to `stat` or to the recursive call is the pathname of the entry. -/
def Call.Names : Call → Prop
  | .opendir _ => True
  | .stat dir d_name path | .find_dir dir d_name path => path = dir ++ '/' :: d_name.1

mutual

/-- The pathnames of the directories from a node on. -/
def dirPaths : Path → Node → List Path
  | p, .dir _ _ es => p :: dirPathsEntries p es
  | _, _ => []

def dirPathsEntries : Path → List (CStr × Node) → List Path
  | _, [] => []
  | p, (name, n) :: es => dirPaths (p ++ '/' :: name.1) n ++ dirPathsEntries p es

end

section Calls

variable {fs : FileSystem} {behind : Behind} {stack : Path → Stat} {permissions : CStr}
  {sub : Path → Option (List Call)} {dir : Path}

end Calls

/-! ## Pathnames that fit -/

section Visits

variable {fs : FileSystem} {behind : Behind} {stack : Path → Stat} {cap : ℕ}

/-- What `find_dir` opens is the directories from the node on, and the paths it passes on are right. -/
structure Right (fs : FileSystem) (calls : List Call) (ns : List Node) : Prop where
  opens : (opened calls).map fs.realpath = ns.map Node.path
  names : ∀ c ∈ calls, c.Names

theorem Right.append {calls calls' : List Call} {ns ns' : List Node} (h : Right fs calls ns)
    (h' : Right fs calls' ns') : Right fs (calls ++ calls') (ns ++ ns') where
  opens := by
    rw [opened, List.filterMap_append, List.map_append, List.map_append, ← h.opens, ← h'.opens]
    rfl
  names := List.forall_mem_append.2 ⟨h.names, h'.names⟩

end Visits

/-! ## Trees -/

end Sysopy.FindDir
