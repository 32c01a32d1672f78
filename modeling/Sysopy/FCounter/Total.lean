/-
The total that the first fcounter process computes. A process ends with the number of regular files below its
directory, of which wait gets the low byte; so the total is right just if no subdirectory of the first directory has
more than 255 of them, in whatever order the processes take their steps.
-/
import Sysopy.FCounter.Count

namespace Sysopy.FCounter

open Sysopy.CText Sysopy.Conc Sysopy.Files

/-! ## The contract of a process -/

/-- A directory that a process can count, with everything below it. -/
structure Countable (fs : FileSystem) (p : Path) (n : Node) : Prop where
  isDir : n.type = .dir
  plain : Plain n
  short : p.length < PATH_LENGTH
  mounted : Mounted fs PATH_LENGTH p n

/-- An entry that has not been read. -/
structure Entry (fs : FileSystem) (path : CStr) (e : CStr × Node) : Prop where
  plain : Plain e.2
  short : (deeperPath path e.1).1.length < PATH_LENGTH
  mounted : Mounted fs PATH_LENGTH (deeperPath path e.1).1 e.2

/-- What a process has counted of the entries it has read, with the directories of the children it has waited for
and of the others. -/
structure Tally (v : Vars) (read : List (CStr × Node)) (reaped left : List Node) : Prop where
  files : v.file_count = toInt (regs read)
  below : v.files_in_dir_count = toInt (reported reaped)
  procs : v.proc_count = reaped.length + left.length
  nodes : (reaped ++ left).Perm (subdirs read)

mutual

/-- The number of steps that counting a directory takes. -/
def cost (fs : FileSystem) : Path → Node → ℕ
  | p, .dir _ _ es => ((fs.readdir p).getD []).length + 5 + costs fs p es
  | _, _ => 0

/-- Of these, what each subdirectory takes; its status has to be waited for. -/
def costs (fs : FileSystem) : Path → List (CStr × Node) → ℕ
  | _, [] => 0
  | p, (name, n) :: es => (if n.type = .dir then cost fs (p ++ '/' :: name.1) n + 1 else 0) + costs fs p es

end

/-- A process that counts a directory. -/
inductive Inv (fs : FileSystem) : State → Node → List Node → ℕ → Prop
  | start {args : List CStr} {path : CStr} {sleeps : Bool} {n : Node} (args_eq : readArgs args = .count path sleeps)
      (countable : Countable fs path.1 n) : Inv fs (.start args) n [] (cost fs path.1 n)
  | reading {p : Path} {st : Stat} {read left : List (CStr × Node)} {l : List (CStr × FileType)} {v : Vars}
      {js : List Node} (stream : (l.filter fun e => !isDot e.1) = left.map fun e => (e.1, e.2.type))
      (entries : ∀ e ∈ left, Entry fs v.path e) (tally : Tally v read [] js) :
      Inv fs (.reading l v) (.dir p st (read ++ left)) js (l.length + 4 + costs fs v.path.1 left + js.length)
  | sleeping {p : Path} {st : Stat} {es : List (CStr × Node)} {v : Vars} {js : List Node} (tally : Tally v es [] js) :
      Inv fs (.sleeping v) (.dir p st es) js (3 + js.length)
  | waiting {p : Path} {st : Stat} {es : List (CStr × Node)} {v : Vars} {reaped js : List Node}
      (tally : Tally v es reaped js) : Inv fs (.waiting reaped.length v) (.dir p st es) js (2 + js.length)
  | exiting {p : Path} {st : Stat} {es : List (CStr × Node)} {v : Vars} {reaped : List Node}
      (tally : Tally v es reaped []) : Inv fs (.exiting v) (.dir p st es) [] 1

/-! ### What is counted -/

section Tally

variable {v : Vars} {read : List (CStr × Node)} {e : CStr × Node} {reaped js js₁ js₂ : List Node} {m : Node}

theorem tally_nil (path : CStr) (sleeps : Bool) : Tally ⟨path, sleeps, 0, 0, 0⟩ [] [] [] := ⟨rfl, rfl, rfl, .nil⟩

theorem Tally.reg (h : Tally v read [] js) (he : e.2.type = .reg) :
    Tally { v with file_count := toInt (v.file_count + 1) } (read ++ [e]) [] js where
  files := by
    rw [regs_append_reg he, h.files, toInt_add]
    push_cast
    rfl
  below := h.below
  procs := h.procs
  nodes := by
    rw [subdirs_append_reg he]
    exact h.nodes

theorem Tally.dir (h : Tally v read [] js) (he : e.2.type = .dir) :
    Tally { v with proc_count := v.proc_count + 1 } (read ++ [e]) [] (js ++ [e.2]) where
  files := by
    rw [regs_append_dir he]
    exact h.files
  below := h.below
  procs := by
    have hprocs := h.procs
    simp only [List.length_nil, List.length_append, List.length_cons] at hprocs ⊢
    omega
  nodes := by
    rw [subdirs_append_dir he, List.nil_append]
    exact h.nodes.append_right [e.2]

/-- The status of a child is added. -/
theorem Tally.reap (h : Tally v read reaped (js₁ ++ m :: js₂)) :
    Tally { v with files_in_dir_count := toInt (v.files_in_dir_count + WEXITSTATUS (exitStatus (regularFiles m))) } read
      (reaped ++ [m]) (js₁ ++ js₂) where
  files := h.files
  below := by
    simp only
    rw [h.below, toInt_add, WEXITSTATUS_exitStatus, reported_append_singleton]
    push_cast
    rfl
  procs := by
    have hprocs := h.procs
    simp only [List.length_append, List.length_cons, List.length_nil] at hprocs ⊢
    omega
  nodes := by
    refine List.Perm.trans ?_ h.nodes
    rw [List.append_assoc, List.singleton_append]
    exact List.perm_middle.symm.append_left reaped

/-- What is left when all children have been waited for. -/
theorem Tally.value (h : Tally v read reaped []) : v.value = toInt (regs read + reported (subdirs read) : ℕ) := by
  have hnodes : reaped.Perm (subdirs read) := by simpa using h.nodes
  rw [Vars.value, h.files, h.below, toInt_add_toInt, reported_perm hnodes]
  push_cast
  rfl

theorem Tally.exitStatus (h : Tally v read reaped []) (p : Path) (st : Stat) :
    exitStatus v.value = exitStatus (regularFiles (.dir p st read)) := by
  have hmod := reported_emod (subdirs read)
  unfold FCounter.exitStatus
  rw [h.value, toInt_emod, regularFiles_dir]
  congr 2
  omega

end Tally

/-! ### What a process does -/

section Steps

variable {fs : FileSystem} {stack : Path → Stat} {path : CStr} {sleeps : Bool} {n : Node}

abbrev Keeps (fs : FileSystem) : Node → List Node → ℕ → Option (Family.Action State) → Prop :=
  Family.Keeps (fun n => exitStatus (regularFiles n)) (Inv fs)

/-- A process is told the directory that its parent has found. -/
theorem readArgs_execArgs (sleeps : Bool) (path d_name : CStr) :
    readArgs (execArgs sleeps (deeperPath path d_name)) = .count (deeperPath path d_name) sleeps := by
  have hne : strcmp (deeperPath path d_name).1 minusW.1 ≠ 0 := by
    rw [Ne, strcmp_eq_zero_iff (deeperPath path d_name).2 minusW.2]
    intro heq
    have hslash : '/' ∈ (deeperPath path d_name).1 := List.mem_append_right _ List.mem_cons_self
    rw [heq] at hslash
    exact absurd hslash (by decide)
  cases sleeps with
  | false => simp [execArgs, readArgs, hne]
  | true =>
    have hself : strcmp minusW.1 minusW.1 = 0 := rfl
    simp [execArgs, readArgs, hself]

variable (stack) in
/-- A process that is started opens its directory. -/
theorem step_start {args : List CStr} (hargs : readArgs args = .count path sleeps) (h : Countable fs path.1 n) :
    ∃ p st es l, n = .dir p st es ∧ fs.readdir path.1 = some l ∧
      step fs stack (.start args) = some (.go (.reading l ⟨path, sleeps, 0, 0, 0⟩)) ∧
      (l.filter fun e => !isDot e.1) = (es.map fun e => (e.1, e.2.type)) ∧ ∀ e ∈ es, Entry fs path e := by
  obtain ⟨hdir, hplain, hshort, hmount⟩ := h
  cases hmount with
  | leaf hne => exact absurd hdir hne
  | @dir _ p st es l _ hread _ hl hlen hbelow =>
    refine ⟨p, st, es, l, rfl, hread, ?_, hl, ?_⟩
    · simp only [step, hargs, if_pos hshort, hread, Option.map_some]
    · cases hplain with
      | dir _ hes => exact fun e he => ⟨hes e he, hlen e he, hbelow e he⟩

theorem keeps_start {args : List CStr} (hargs : readArgs args = .count path sleeps) (h : Countable fs path.1 n) :
    Keeps fs n [] (cost fs path.1 n) (step fs stack (.start args)) := by
  obtain ⟨p, st, es, l, rfl, hread, hstep, hl, hentries⟩ := step_start stack hargs h
  rw [hstep, cost, hread]
  have hinv : Inv fs (.reading l ⟨path, sleeps, 0, 0, 0⟩) (.dir p st ([] ++ es)) [] _ :=
    .reading hl hentries (tally_nil path sleeps)
  refine .go ?_ hinv
  simp only [Option.getD_some, List.length_nil]
  omega

theorem countEntry_dot {e : CStr × FileType} (he : isDot e.1 = true) (l : List (CStr × FileType)) (v : Vars) :
    countEntry fs stack e.1 l v = some (.go (.reading l v)) := by
  unfold countEntry
  rw [if_neg ((isDot_iff e.1).1 he)]

theorem countEntry_of_stat {name : CStr} {v : Vars} {st : Stat} (hdot : isDot name = false)
    (hshort : (deeperPath v.path name).1.length < PATH_LENGTH) (hst : fs.stat (deeperPath v.path name).1 = some st)
    (l : List (CStr × FileType)) : countEntry fs stack name l v =
      if S_ISDIR st.mode then
        some (.fork (.reading l { v with proc_count := v.proc_count + 1 })
          (.start (execArgs v.sleeps (deeperPath v.path name))))
      else if S_ISREG st.mode then some (.go (.reading l { v with file_count := toInt (v.file_count + 1) }))
      else some (.go (.reading l v)) := by
  unfold countEntry
  rw [if_pos ((isDot_eq_false_iff name).1 hdot)]
  simp only [if_pos hshort, hst, Option.getD_some]

/-- A mode says one type. -/
theorem not_isDir_of_isReg {mode : ℕ} (h : S_ISREG mode = true) : S_ISDIR mode = false := by
  simp only [S_ISREG, S_ISDIR, decide_eq_true_eq, decide_eq_false_iff_not] at h ⊢
  rw [h]
  decide

/-- The next entry is "." or "..", a regular file or a subdirectory. -/
theorem keeps_reading {p : Path} {st : Stat} {read left : List (CStr × Node)} {e : CStr × FileType}
    {l : List (CStr × FileType)} {v : Vars} {js : List Node}
    (hl : ((e :: l).filter fun e => !isDot e.1) = left.map fun e => (e.1, e.2.type))
    (hleft : ∀ e ∈ left, Entry fs v.path e) (h : Tally v read [] js) :
    Keeps fs (.dir p st (read ++ left)) js ((e :: l).length + 4 + costs fs v.path.1 left + js.length)
      (step fs stack (.reading (e :: l) v)) := by
  show Keeps fs _ js _ (countEntry fs stack e.1 l v)
  rw [List.length_cons]
  cases hdot : isDot e.1 with
  | true =>
    rw [List.filter_cons_of_neg (by simp [hdot])] at hl
    rw [countEntry_dot hdot]
    exact .go (by omega) (.reading hl hleft h)
  | false =>
    rw [List.filter_cons_of_pos (by simp [hdot])] at hl
    obtain ⟨⟨name, n⟩, left, rfl, rfl, hl'⟩ := List.map_eq_cons_iff.1 hl.symm
    obtain ⟨⟨hplain, hshort, hmount⟩, hrest⟩ := List.forall_mem_cons.1 hleft
    have hsplit : read ++ (name, n) :: left = (read ++ [(name, n)]) ++ left := List.append_cons _ _ _
    have hres := hmount.resolves
    rw [hsplit]
    cases hplain with
    | reg hmode =>
      rw [countEntry_of_stat hdot hshort hres.stat, if_neg (by simp [not_isDir_of_isReg hmode]), if_pos hmode]
      refine .go ?_ (.reading hl'.symm hrest (h.reg rfl))
      rw [costs, if_neg (by simp [Node.type])]
      simp only
      omega
    | dir hmode hes =>
      rw [countEntry_of_stat hdot hshort hres.stat, if_pos hmode]
      refine .fork ?_ (.reading hl'.symm hrest (h.dir rfl))
        (.start (readArgs_execArgs v.sleeps v.path name) ⟨rfl, .dir hmode hes, hshort, hmount⟩)
      rw [costs, if_pos (by simp [Node.type]), List.length_append, List.length_singleton]
      simp only [deeperPath]
      omega

/-- A process waits as long as there are children. -/
theorem keeps_waiting {p : Path} {st : Stat} {es : List (CStr × Node)} {v : Vars} {reaped js : List Node}
    (h : Tally v es reaped js) :
    Keeps fs (.dir p st es) js (2 + js.length) (step fs stack (.waiting reaped.length v)) := by
  have hprocs := h.procs
  by_cases hjs : js = []
  · subst hjs
    have hstep : step fs stack (.waiting reaped.length v) = some (.go (.exiting v)) :=
      if_neg (by rw [hprocs]; simp)
    rw [hstep]
    exact .go rfl (.exiting h)
  · have hpos := List.length_pos_of_ne_nil hjs
    have hsteps : 2 + js.length = 2 + (js.length - 1) + 1 := by omega
    have hstep : step fs stack (.waiting reaped.length v) = some (.wait fun status => .waiting (reaped.length + 1)
        { v with files_in_dir_count := toInt (v.files_in_dir_count + WEXITSTATUS status) }) := if_pos (by omega)
    rw [hstep]
    refine .wait hsteps hjs ?_
    rintro js₁ m js₂ rfl
    have hinv : Inv fs _ (.dir p st es) (js₁ ++ js₂) _ := .waiting h.reap
    rw [List.length_append, List.length_singleton] at hinv
    have hleft : (js₁ ++ m :: js₂).length - 1 = (js₁ ++ js₂).length := by simp
    rw [hleft]
    exact hinv

variable (stack) in
/-- The contract: a process that counts a directory ends with the number of files below it. -/
theorem keeps_step {s : State} {js : List Node} {k : ℕ} (h : Inv fs s n js k) : Keeps fs n js k (step fs stack s) := by
  cases h with
  | start hargs hcountable => exact keeps_start hargs hcountable
  | @reading p st read left l v js hl hleft h =>
    cases l with
    | cons e l => exact keeps_reading hl hleft h
    | nil =>
      obtain rfl : left = [] := List.map_eq_nil_iff.1 hl.symm
      rw [List.append_nil]
      refine .go ?_ (.sleeping h)
      rw [costs, List.length_nil]
      omega
  | sleeping h => exact .go (by omega) (.waiting h)
  | waiting h => exact keeps_waiting h
  | @exiting p st es v reaped h =>
    have hstep : step fs stack (.exiting v) = some (.exit (exitStatus v.value)) := rfl
    rw [hstep, h.exitStatus p st]
    exact .exit

end Steps

/-- Only in one place a process ends. -/
theorem exiting_of_exit {fs : FileSystem} {stack : Path → Stat} {s : State} {n : Node} {js : List Node} {k status : ℕ}
    (h : Inv fs s n js k) (hP : step fs stack s = some (.exit status)) : ∃ v, s = .exiting v := by
  have hkeeps := keeps_step stack h
  rw [hP] at hkeeps
  obtain ⟨-, -, hk⟩ := hkeeps.of_exit
  cases h with
  | @start _ path _ n _ hcountable =>
    obtain ⟨hdir, -, -, -⟩ := hcountable
    cases n with
    | dir =>
      rw [cost] at hk
      omega
    | reg | other | lnk => cases hdir
  | reading | sleeping | waiting => omega
  | exiting => exact ⟨_, rfl⟩

/-- The contract that every process of `fcounter` keeps to. -/
def contract (fs : FileSystem) (stack : Path → Stat) : Family.Contract (step fs stack) Node where
  code n := exitStatus (regularFiles n)
  Inv := Inv fs
  step := keeps_step stack

/-! ## The first process -/

section Total

variable {fs : FileSystem} {stack : Path → Stat} {args : List CStr} {path : CStr} {sleeps : Bool} {root : Node}

/-- The regular files of a directory itself. -/
def ownFiles : Node → ℕ
  | .dir _ _ es => regs es
  | _ => 0

theorem regularFiles_eq {n : Node} (hn : n.type = .dir) :
    regularFiles n = ownFiles n + ((subdirectories n).map regularFiles).sum := by
  cases n with
  | dir p st es => exact regularFiles_dir p st es
  | reg | other | lnk => cases hn

/-- In every run the value is that of the directory's own files and the low bytes of its subdirectories. -/
theorem value_eq (hargs : readArgs args = .count path sleeps) (hroot : Countable fs path.1 root) {v : Vars}
    {children : List (Family.Proc State)} (h : (fcounter fs stack args).Reachable (.run (.exiting v) children)) :
    v.value = toInt (ownFiles root + reported (subdirectories root) : ℕ) := by
  have h0 : (contract fs stack).Inv (.start args) root [] _ := .start hargs hroot
  obtain ⟨js, k, hinv⟩ := Family.inv_of_reachable h0 h
  cases hinv with
  | exiting htally => exact htally.value

variable (stack) in
/-- The first process comes to `_exit`. -/
theorem value_reached (hargs : readArgs args = .count path sleeps) (hroot : Countable fs path.1 root) :
    ∃ v children, (fcounter fs stack args).Reachable (.run (.exiting v) children) := by
  have h0 : (contract fs stack).Inv (.start args) root [] _ := .start hargs hroot
  obtain ⟨l, children, status, hreach, hP⟩ := Family.exit_reachable (Family.meets_start h0) (.init rfl)
  obtain ⟨js, k, hinv⟩ := Family.inv_of_reachable h0 hreach
  obtain ⟨v, rfl⟩ := exiting_of_exit hinv hP
  exact ⟨v, children, hreach⟩

variable (stack) in
/-- All runs compute one value. -/
theorem all_values_iff (hargs : readArgs args = .count path sleeps) (hroot : Countable fs path.1 root) {x : ℤ} :
    (∀ v children, (fcounter fs stack args).Reachable (.run (.exiting v) children) → v.value = x) ↔
      toInt (ownFiles root + reported (subdirectories root) : ℕ) = x := by
  constructor
  · intro h
    obtain ⟨v, children, hreach⟩ := value_reached stack hargs hroot
    rw [← value_eq hargs hroot hreach]
    exact h v children hreach
  · intro h v children hreach
    rw [value_eq hargs hroot hreach, h]

variable (stack) in
/-- In every order of its steps `fcounter` comes to an end, and the value that the first process computes is the number
of regular files in the tree if and only if that is an int and none of the subdirectories of the root has more than
255 of them. -/
theorem counts_iff (hargs : readArgs args = .count path sleeps) (hroot : Countable fs path.1 root) :
    (∃ k, ∀ as p, (fcounter fs stack args).run (.run (.start args) []) as = some p → as.length ≤ k ∧
      ((∃ status, p = .ended status) ∨ ∃ a p', (fcounter fs stack args).next p a = some p')) ∧
    ((∀ v children, (fcounter fs stack args).Reachable (.run (.exiting v) children) → v.value = regularFiles root) ↔
      regularFiles root < 2 ^ 31 ∧ ∀ n ∈ subdirectories root, regularFiles n < 256) := by
  have h0 : (contract fs stack).Inv (.start args) root [] _ := .start hargs hroot
  refine ⟨⟨_, fun as p => Family.ends_of_run h0 as⟩, ?_⟩
  have hfiles := regularFiles_eq hroot.isDir
  have hle := reported_le (subdirectories root)
  rw [all_values_iff stack hargs hroot, toInt_eq_iff (by omega), ← reported_eq_iff]
  refine and_congr_right fun _ => ?_
  omega

end Total

/-! ## Trees -/

def directory755 : Stat := ⟨0o040755, 80, 7⟩

def regular644 : Stat := ⟨0o100644, 12, 7⟩

/-- A directory with a file, and a subdirectory with another one. -/
def twoFiles : List (Path × Node) :=
  let a := Node.reg "/t/a".toList regular644
  let b := Node.reg "/t/d/b".toList regular644
  let d := Node.dir "/t/d".toList directory755 [(⟨"b".toList, nul_not_mem_nameB⟩, b)]
  let t := Node.dir "/t".toList directory755
    [(⟨"a".toList, nul_not_mem_nameA⟩, a), (⟨"d".toList, nul_not_mem_nameD⟩, d)]
  [(".".toList, t), ("./a".toList, a), ("./d".toList, d), ("./d/b".toList, b)]

theorem twoFiles_countable : Countable (fileSystem twoFiles) dot.1 (twoFiles.head (by decide)).2 where
  isDir := rfl
  plain := by
    refine .dir rfl ?_
    simp only [List.forall_mem_cons, List.not_mem_nil, false_imp_iff, implies_true, and_true]
    refine ⟨.reg rfl, .dir rfl ?_⟩
    simp only [List.forall_mem_cons, List.not_mem_nil, false_imp_iff, implies_true, and_true]
    exact .reg rfl
  short := by decide
  mounted := by
    refine mounted_fileSystem rfl (by decide) (by decide) ?_
    simp only [List.forall_mem_cons, List.not_mem_nil, false_imp_iff, implies_true, and_true]
    refine ⟨.leaf nofun (resolves_fileSystem rfl), ?_⟩
    refine mounted_fileSystem rfl (by decide) (by decide) ?_
    simp only [List.forall_mem_cons, List.not_mem_nil, false_imp_iff, implies_true, and_true]
    exact .leaf nofun (resolves_fileSystem rfl)

theorem counts_twoFiles :
    (∃ k, ∀ as p, (fcounter (fileSystem twoFiles) (fun _ => regular644) []).run (.run (.start []) []) as = some p →
      as.length ≤ k ∧ ((∃ status, p = .ended status) ∨
        ∃ a p', (fcounter (fileSystem twoFiles) (fun _ => regular644) []).next p a = some p')) ∧
    ∀ v children, (fcounter (fileSystem twoFiles) (fun _ => regular644) []).Reachable (.run (.exiting v) children) →
      v.value = 2 := by
  have hargs : readArgs [] = .count dot false := rfl
  have hfiles : regularFiles (twoFiles.head (by decide)).2 = 2 := by
    simp [twoFiles, regularFiles, Node.type]
  have hsub : ∀ n ∈ subdirectories (twoFiles.head (by decide)).2, regularFiles n < 256 := by
    simp [twoFiles, subdirectories, subdirs, regularFiles, Node.type]
  obtain ⟨hends, hiff⟩ := counts_iff (fun _ => regular644) hargs twoFiles_countable
  rw [hfiles] at hiff
  exact ⟨hends, hiff.2 ⟨by decide, hsub⟩⟩

/-! A subdirectory with 256 files. -/

def fileName (i : ℕ) : CStr :=
  ⟨Nat.toDigits 10 i, fun h => absurd (isDigit_of_mem_digits h) (by decide)⟩

def filePath (i : ℕ) : Path := "./d".toList ++ '/' :: (fileName i).1

def files : List (CStr × Node) := (List.range 256).map fun i => (fileName i, .reg (filePath i) regular644)

def crowdedName : CStr := ⟨"d".toList, nul_not_mem_nameD⟩

def crowdedDir : Node := .dir "./d".toList directory755 files

def crowdedRoot : Node := .dir ".".toList directory755 [(crowdedName, crowdedDir)]

def dots : List (CStr × FileType) := [(dot, .dir), (⟨"..".toList, nul_not_mem_dotDot⟩, .dir)]

/-- Pathnames that are taken as they stand. -/
def crowded : FileSystem where
  readdir p :=
    if p = ".".toList then some (dots ++ [(crowdedName, .dir)])
    else if p = "./d".toList then some (dots ++ files.map fun e => (e.1, e.2.type))
    else none
  stat p := if p = ".".toList ∨ p = "./d".toList then some directory755 else some regular644
  realpath p := p

theorem isDot_fileName (i : ℕ) : isDot (fileName i) = false := by
  have hdot : '.' ∉ (fileName i).1 := fun h => absurd (isDigit_of_mem_digits h) (by decide)
  unfold isDot
  rw [Bool.or_eq_false_iff, decide_eq_false_iff_not, decide_eq_false_iff_not]
  constructor
  · intro h
    rw [h] at hdot
    exact hdot (by decide)
  · intro h
    rw [h] at hdot
    exact hdot (by decide)

theorem length_filePath {i : ℕ} (hi : i < 256) : (filePath i).length < PATH_LENGTH := by
  have hlen : (fileName i).1.length ≤ 3 := Nat.toDigits_length 10 i 3 (by decide) (by omega)
  have hdir : "./d".toList.length = 3 := rfl
  unfold filePath PATH_LENGTH
  rw [List.length_append, List.length_cons, hdir]
  omega

theorem mem_files {e : CStr × Node} (he : e ∈ files) : ∃ i < 256, e = (fileName i, .reg (filePath i) regular644) := by
  obtain ⟨i, hi, rfl⟩ := List.mem_map.1 he
  exact ⟨i, List.mem_range.1 hi, rfl⟩

theorem mounted_file (i : ℕ) : Mounted crowded PATH_LENGTH (filePath i) (.reg (filePath i) regular644) := by
  have hne : ¬ (filePath i = ".".toList ∨ filePath i = "./d".toList) := by
    have hlen : 3 < (filePath i).length := by
      unfold filePath
      rw [List.length_append, List.length_cons]
      exact Nat.lt_add_of_pos_right (Nat.succ_pos _)
    rintro (h | h)
    · rw [h] at hlen
      exact absurd hlen (by decide)
    · rw [h] at hlen
      exact absurd hlen (by decide)
  refine .leaf nofun ⟨?_, ?_⟩
  · simp only [crowded, if_neg hne]
    rfl
  · rintro t ⟨⟩
    rfl

theorem mounted_crowdedDir : Mounted crowded PATH_LENGTH "./d".toList crowdedDir := by
  have hread : crowded.readdir "./d".toList = some (dots ++ files.map fun e => (e.1, e.2.type)) := rfl
  have hfiles : ∀ e ∈ files.map fun e => (e.1, e.2.type), isDot e.1 = false := by
    intro e he
    obtain ⟨x, hx, rfl⟩ := List.mem_map.1 he
    obtain ⟨i, -, rfl⟩ := mem_files hx
    exact isDot_fileName i
  have hkeep : (files.map fun e => (e.1, e.2.type)).filter (fun e => !isDot e.1) =
      files.map fun e => (e.1, e.2.type) := List.filter_eq_self.2 fun e he => by simp [hfiles e he]
  refine .dir ⟨rfl, ?_⟩ hread ?_ ?_ ?_ ?_
  · rintro t ⟨⟩
    rfl
  · intro e he hdot
    rcases List.mem_append.1 he with he | he
    · have hdots : ∀ e ∈ dots, e.2 = .dir := by decide
      exact hdots e he
    · rw [hfiles e he] at hdot
      cases hdot
  · rw [List.filter_append, hkeep]
    rfl
  · intro e he
    obtain ⟨i, hi, rfl⟩ := mem_files he
    exact length_filePath hi
  · intro e he
    obtain ⟨i, -, rfl⟩ := mem_files he
    exact mounted_file i

theorem crowded_countable : Countable crowded dot.1 crowdedRoot where
  isDir := rfl
  plain := by
    refine .dir rfl (List.forall_mem_singleton.2 (.dir rfl fun e he => ?_))
    obtain ⟨i, -, rfl⟩ := mem_files he
    exact .reg rfl
  short := by decide
  mounted := by
    have hread : crowded.readdir dot.1 = some (dots ++ [(crowdedName, .dir)]) := rfl
    refine .dir ⟨rfl, ?_⟩ hread (by decide) rfl (by decide) ?_
    · rintro t ⟨⟩
      rfl
    · exact List.forall_mem_singleton.2 mounted_crowdedDir

theorem regularFiles_crowdedDir : regularFiles crowdedDir = 256 := by
  have hregs : regs files = 256 := by
    have hall : ∀ e ∈ files, decide (e.2.type = .reg) = true := by
      intro e he
      obtain ⟨i, -, rfl⟩ := mem_files he
      rfl
    rw [regs, List.countP_eq_length.2 hall, files, List.length_map, List.length_range]
  have hsub : subdirs files = [] := by
    rw [subdirs, List.filter_eq_nil_iff]
    intro n hn
    obtain ⟨e, he, rfl⟩ := List.mem_map.1 hn
    obtain ⟨i, -, rfl⟩ := mem_files he
    simp [Node.type]
  rw [crowdedDir, regularFiles_dir, hregs, hsub]
  rfl

/-- The 256 files are counted as none. -/
theorem crowded_lost : Countable crowded dot.1 crowdedRoot ∧ regularFiles crowdedRoot = 256 ∧
    ∃ v children, (fcounter crowded (fun _ => regular644) []).Reachable (.run (.exiting v) children) ∧ v.value = 0 := by
  have hargs : readArgs [] = .count dot false := rfl
  have hsub : subdirectories crowdedRoot = [crowdedDir] := rfl
  refine ⟨crowded_countable, ?_, ?_⟩
  · rw [regularFiles_eq rfl, hsub, List.map_singleton, regularFiles_crowdedDir]
    rfl
  · obtain ⟨v, children, h⟩ := value_reached (fun _ => regular644) hargs crowded_countable
    refine ⟨v, children, h, ?_⟩
    rw [value_eq hargs crowded_countable h, hsub, reported, List.map_singleton, regularFiles_crowdedDir]
    rfl

end Sysopy.FCounter
