/-
fcounter (cw03/zad2): a process counts the regular files of one directory, and forks a process for each of its
subdirectories that runs the same program there. What a process has counted with its children is its exit status.
-/
import Sysopy.CText.Decimal
import Sysopy.Conc.Family
import Sysopy.Files.Tree

namespace Sysopy.FCounter

open Sysopy.CText Sysopy.Conc Sysopy.Files

def PATH_LENGTH : ℕ := 256

/-! ## Library functions -/

def S_IFMT : ℕ := 0o170000

def S_ISDIR (mode : ℕ) : Bool := mode &&& S_IFMT = 0o040000

def S_ISREG (mode : ℕ) : Bool := mode &&& S_IFMT = 0o100000

/-- What `wait` stores of a process that has called `_exit`: the low byte of the value, one byte up. -/
def exitStatus (value : ℤ) : ℕ := (value % 256).toNat <<< 8

def WEXITSTATUS (status : ℕ) : ℕ := (status &&& 0xff00) >>> 8

/-! ## Arguments -/

/-- What the arguments ask for. -/
inductive Args where
  | usage
  | count (path : CStr) (sleeps : Bool)

def dot : CStr := ⟨".".toList, nul_not_mem_dot⟩

def minusW : CStr := ⟨"-w".toList, by decide⟩

/-- The arguments behind `argv[0]`. -/
def readArgs : List CStr → Args
  | [] => .count dot false
  | [a] => if strcmp a.1 minusW.1 = 0 then .count dot true else .count a false
  | [a, w] => .count a (decide (strcmp w.1 minusW.1 = 0))
  | _ => .usage

/-- `deeper_path` after `strcpy` and the two `strcat`. -/
def deeperPath (path d_name : CStr) : CStr :=
  ⟨path.1 ++ '/' :: d_name.1, by simp [path.2, d_name.2]⟩

/-- What `execlp` passes behind `argv[0]`. -/
def execArgs (sleeps : Bool) (deeper_path : CStr) : List CStr :=
  if sleeps then [deeper_path, minusW] else [deeper_path]

/-! ## Processes -/

/-- The variables of `main`. There are fewer processes than an int can count, as their number is a `pid_t`. -/
structure Vars where
  path : CStr
  sleeps : Bool
  file_count : ℤ
  files_in_dir_count : ℤ
  proc_count : ℕ

/-- The value that is passed to `_exit`. -/
def Vars.value (v : Vars) : ℤ := toInt (v.file_count + v.files_in_dir_count)

/-- Where a process is. -/
inductive State where
  /-- The program is started. -/
  | start (args : List CStr)
  /-- Before `readdir`, with the entries that are still to come. -/
  | reading (entries : List (CStr × FileType)) (v : Vars)
  /-- Before `if(sleeps) sleep(SLEEPS_FOR);`. -/
  | sleeping (v : Vars)
  /-- In the loop that waits. -/
  | waiting (i : ℕ) (v : Vars)
  /-- Before `_exit`. -/
  | exiting (v : Vars)

section Step

-- `stack` is what `my_stat` holds before the call of `stat`, and after one that fails.
variable (fs : FileSystem) (stack : Path → Stat)

/-- One turn of the loop over the entries; `none` when a pathname is written behind the end of `deeper_path`. -/
def countEntry (d_name : CStr) (entries : List (CStr × FileType)) (v : Vars) : Option (Family.Action State) :=
  if strcmp d_name.1 ".".toList ≠ 0 ∧ strcmp d_name.1 "..".toList ≠ 0 then
    let deeper_path := deeperPath v.path d_name
    if deeper_path.1.length < PATH_LENGTH then
      -- the result of `stat` is not looked at
      let my_stat := (fs.stat deeper_path.1).getD (stack deeper_path.1)
      if S_ISDIR my_stat.mode then
        some (.fork (.reading entries { v with proc_count := v.proc_count + 1 })
          (.start (execArgs v.sleeps deeper_path)))
      else if S_ISREG my_stat.mode then
        some (.go (.reading entries { v with file_count := toInt (v.file_count + 1) }))
      else some (.go (.reading entries v))
    else none
  else some (.go (.reading entries v))

/-- What a process does next; `fork` and `execlp` succeed. `none` when it crashes: a pathname does not fit into its
array, or the directory cannot be opened and `readdir` is given NULL. -/
def step : State → Option (Family.Action State)
  | .start args =>
    match readArgs args with
    | .usage => some (.exit (exitStatus 0))
    | .count path sleeps =>
      if path.1.length < PATH_LENGTH then
        (fs.readdir path.1).map fun entries => .go (.reading entries ⟨path, sleeps, 0, 0, 0⟩)
      else none
  | .reading [] v => some (.go (.sleeping v))
  | .reading (e :: entries) v => countEntry fs stack e.1 entries v
  | .sleeping v => some (.go (.waiting 0 v))
  | .waiting i v =>
    if i < v.proc_count then
      some (.wait fun status =>
        .waiting (i + 1) { v with files_in_dir_count := toInt (v.files_in_dir_count + WEXITSTATUS status) })
    else some (.go (.exiting v))
  | .exiting v => some (.exit (exitStatus v.value))

/-- All runs of `fcounter` with the given arguments: the processes take their steps in any order. -/
def fcounter (args : List CStr) : System (Family.Proc State) (List ℕ × ℕ) := Family.system (step fs stack) (.start args)

end Step

end Sysopy.FCounter
