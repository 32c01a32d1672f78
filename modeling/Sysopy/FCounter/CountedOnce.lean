/-
Whether fcounter counts a regular file twice when calls of `execlp` fail. The child that goes on has the files of its
parent's directory that were counted before the fork in its memory, and counts what comes after the entry just read as
its parent does. So no file is counted twice just if there is nothing of either: wherever a call may fail, the directory
has no regular files, and there are none below the entries that come later.
-/
import Sysopy.FCounter.FailingExec

namespace Sysopy.FCounter

open Sysopy.CText Sysopy.Conc Sysopy.Files

/-! ## Files as units -/

/-- The units that stand for a file. -/
def named (units : Multiset (Option Path)) : Multiset (Option Path) := units.filter fun x => x.isSome

@[simp] theorem named_zero : named 0 = 0 := Multiset.filter_zero _

@[simp] theorem named_add (a b : Multiset (Option Path)) : named (a + b) = named a + named b :=
  Multiset.filter_add _ a b

@[simp] theorem named_some (f : Path) : named {some f} = {some f} := rfl

@[simp] theorem named_replicate_none (n : ℕ) : named (Multiset.replicate n none) = 0 := by
  rw [named, Multiset.filter_eq_nil]
  intro x hx
  rw [Multiset.eq_of_mem_replicate hx]
  decide

theorem count_named (units : Multiset (Option Path)) (f : Path) : (named units).count (some f) = units.count (some f) :=
  Multiset.count_filter_of_pos rfl

/-- The regular files at or below a node. -/
def filesAt (n : Node) : Multiset (Option Path) :=
  ↑(((n :: n.under false).filter fun m => decide (m.type = .reg)).map fun m => some m.path)

/-- Those of a list of entries. -/
def filesOf (es : List (CStr × Node)) : Multiset (Option Path) := (es.map fun e => filesAt e.2).sum

theorem filesOf_cons (e : CStr × Node) (es : List (CStr × Node)) : filesOf (e :: es) = filesAt e.2 + filesOf es := rfl

theorem filesAt_reg (p : Path) (st : Stat) : filesAt (.reg p st) = {some p} := rfl

theorem filesAt_dir (p : Path) (st : Stat) (es : List (CStr × Node)) : filesAt (.dir p st es) = filesOf es := by
  unfold filesAt
  rw [List.filter_cons_of_neg (by simp [Node.type]), Node.under_dir]
  induction es with
  | nil => rfl
  | cons e es ih =>
    rw [List.flatMap_cons, List.filter_append, List.map_append, ← Multiset.coe_add, ih]
    rfl

/-- Every regular file below the root of a tree is one. -/
theorem count_filesAt_le (root : Tree) (f : Path) : (filesAt root.root).count (some f) ≤ 1 := by
  refine Multiset.nodup_iff_count_le_one.1 ?_ _
  have hroot : decide (root.root.type = .reg) = false := by rw [root.isDir]; rfl
  rw [filesAt, List.filter_cons_of_neg (by simp [hroot]), Multiset.coe_nodup]
  have hsub : ((root.root.under false).filter fun m => decide (m.type = .reg)).Sublist (root.root.under false) :=
    List.filter_sublist
  have hnodup := ((hsub.map Node.path).nodup root.distinct).map (Option.some_injective Path)
  rwa [List.map_map] at hnodup

/-! ## Where a call may fail -/

/-- In this directory a call of `execlp` may fail only where the child that goes on has nothing to count and its parent
nothing that the child would count again: there are no regular files, and none below the later entries. -/
def HarmlessIn (mayFail : List CStr → Bool) (sleeps : Bool) (path : CStr) (es : List (CStr × Node)) : Prop :=
  ∀ es₁ e es₂, es = es₁ ++ e :: es₂ → e.2.type = .dir → mayFail (execArgs sleeps (deeperPath path e.1)) = true →
    (∀ x ∈ es, x.2.type ≠ .reg) ∧ filesOf es₂ = 0

/-- In no directory below, this one included. -/
inductive Harmless (mayFail : List CStr → Bool) (sleeps : Bool) : CStr → Node → Prop
  | leaf {path : CStr} {n : Node} (type : n.type ≠ .dir) : Harmless mayFail sleeps path n
  | dir {path : CStr} {p : Path} {st : Stat} {es : List (CStr × Node)} (here : HarmlessIn mayFail sleeps path es)
      (below : ∀ e ∈ es, Harmless mayFail sleeps (deeperPath path e.1) e.2) :
      Harmless mayFail sleeps path (.dir p st es)

/-! ## The entries -/

/-- A directory of a tree; its pathnames may be too long for a process. -/
structure Listed (fs : FileSystem) (p : Path) (n : Node) : Prop where
  isDir : n.type = .dir
  plain : Plain n
  mounted : ∃ cap, Mounted fs cap p n

/-- An entry of such a directory. -/
structure Unread (fs : FileSystem) (path : CStr) (e : CStr × Node) : Prop where
  plain : Plain e.2
  mounted : ∃ cap, Mounted fs cap (deeperPath path e.1).1 e.2

section Entries

variable {fs : FileSystem} {stack : Path → Stat} {path : CStr} {sleeps : Bool} {n : Node}

theorem Countable.listed (h : Countable fs path.1 n) : Listed fs path.1 n := ⟨h.isDir, h.plain, PATH_LENGTH, h.mounted⟩

theorem Entry.unread {e : CStr × Node} (h : Entry fs path e) : Unread fs path e := ⟨h.plain, PATH_LENGTH, h.mounted⟩

theorem Entry.countable {e : CStr × Node} (h : Entry fs path e) (hdir : e.2.type = .dir) :
    Countable fs (deeperPath path e.1).1 e.2 := ⟨hdir, h.plain, h.short, h.mounted⟩

/-- A process that is started opens its directory, or has crashed. -/
theorem Listed.start (h : Listed fs path.1 n) : ∃ p st es l, n = .dir p st es ∧
    (l.filter fun e => !isDot e.1) = (es.map fun e => (e.1, e.2.type)) ∧ (∀ e ∈ es, Unread fs path e) ∧
    ∀ args, readArgs args = .count path sleeps → ∀ act, step fs stack (.start args) = some act →
      act = .go (.reading l ⟨path, sleeps, 0, 0, 0⟩) := by
  obtain ⟨hdir, hplain, cap, hmount⟩ := h
  cases hmount with
  | leaf hne => exact absurd hdir hne
  | @dir _ p st es l _ hread _ hl _ hbelow =>
    refine ⟨p, st, es, l, rfl, hl, ?_, fun args hargs act hact => ?_⟩
    · cases hplain with
      | dir _ hes => exact fun e he => ⟨hes e he, cap, hbelow e he⟩
    · simp only [step, hargs, hread, Option.map_some] at hact
      split at hact <;> cases hact
      rfl

/-- What one turn of the loop does with the next entry; `left` are those of the tree that have not been read. -/
inductive EntryStep (fs : FileSystem) (v : Vars) (l : List (CStr × FileType)) :
    List (CStr × Node) → Option (Family.Action State) → Multiset (Option Path) → Prop
  | dot {left : List (CStr × Node)} (stream : (l.filter fun e => !isDot e.1) = left.map fun e => (e.1, e.2.type)) :
      EntryStep fs v l left (some (.go (.reading l v))) 0
  | reg {name : CStr} {p : Path} {st : Stat} {left : List (CStr × Node)}
      (stream : (l.filter fun e => !isDot e.1) = left.map fun e => (e.1, e.2.type)) :
      EntryStep fs v l ((name, .reg p st) :: left)
        (some (.go (.reading l { v with file_count := toInt (v.file_count + 1) }))) {some p}
  | dir {name : CStr} {p : Path} {st : Stat} {es left : List (CStr × Node)}
      (stream : (l.filter fun e => !isDot e.1) = left.map fun e => (e.1, e.2.type))
      (listed : Listed fs (deeperPath v.path name).1 (.dir p st es)) :
      EntryStep fs v l ((name, .dir p st es) :: left)
        (some (.fork (.reading l { v with proc_count := v.proc_count + 1 })
          (.start (execArgs v.sleeps (deeperPath v.path name))))) 0
  | crash {e : CStr × Node} {left : List (CStr × Node)} {new : Multiset (Option Path)}
      (long : ¬ (deeperPath v.path e.1).1.length < PATH_LENGTH) : EntryStep fs v l (e :: left) none new

theorem countedFile_of_stat {e : CStr × FileType} {v : Vars} {st : Stat} (hdot : isDot e.1 = false)
    (hst : fs.stat (deeperPath v.path e.1).1 = some st) (l : List (CStr × FileType)) :
    countedFile fs stack (.reading (e :: l) v) =
      if S_ISDIR st.mode then 0 else if S_ISREG st.mode then {some (fs.realpath (deeperPath v.path e.1).1)} else 0 := by
  simp only [countedFile, if_pos ((isDot_eq_false_iff e.1).1 hdot), hst, Option.getD_some]

theorem countEntry_of_long {name : CStr} {v : Vars} (hdot : isDot name = false)
    (hlong : ¬ (deeperPath v.path name).1.length < PATH_LENGTH) (l : List (CStr × FileType)) :
    countEntry fs stack name l v = none := by
  simp only [countEntry, if_pos ((isDot_eq_false_iff name).1 hdot), if_neg hlong]

variable (stack) in
/-- The next entry is "." or "..", a regular file or a subdirectory. -/
theorem entry_step {e : CStr × FileType} {l : List (CStr × FileType)} {v : Vars} {left : List (CStr × Node)}
    (hl : ((e :: l).filter fun e => !isDot e.1) = left.map fun e => (e.1, e.2.type))
    (hleft : ∀ e ∈ left, Unread fs v.path e) :
    EntryStep fs v l left (step fs stack (.reading (e :: l) v)) (countedFile fs stack (.reading (e :: l) v)) := by
  show EntryStep fs v l left (countEntry fs stack e.1 l v) _
  cases hdot : isDot e.1 with
  | true =>
    rw [List.filter_cons_of_neg (by simp [hdot])] at hl
    have hnone : countedFile fs stack (.reading (e :: l) v) = 0 := by
      simp only [countedFile, if_neg ((isDot_iff e.1).1 hdot)]
    rw [countEntry_dot hdot, hnone]
    exact .dot hl
  | false =>
    rw [List.filter_cons_of_pos (by simp [hdot])] at hl
    obtain ⟨⟨name, n⟩, left, rfl, rfl, hl'⟩ := List.map_eq_cons_iff.1 hl.symm
    obtain ⟨⟨hplain, cap, hmount⟩, -⟩ := List.forall_mem_cons.1 hleft
    have hres := hmount.resolves
    by_cases hshort : (deeperPath v.path name).1.length < PATH_LENGTH
    · cases hplain with
      | @reg p st hmode =>
        rw [countEntry_of_stat hdot hshort hres.stat, countedFile_of_stat hdot hres.stat,
          if_neg (by simp [not_isDir_of_isReg hmode]), if_pos hmode, if_neg (by simp [not_isDir_of_isReg hmode]),
          if_pos hmode, hres.realpath _ rfl]
        exact .reg hl'.symm
      | dir hmode hes =>
        rw [countEntry_of_stat hdot hshort hres.stat, countedFile_of_stat hdot hres.stat, if_pos hmode, if_pos hmode]
        exact .dir hl'.symm ⟨rfl, .dir hmode hes, cap, hmount⟩
    · rw [countEntry_of_long hdot hshort]
      exact .crash hshort

end Entries

/-! ## What a process counts at most -/

section Bounded

variable {fs : FileSystem} {stack : Path → Stat} {mayFail : List CStr → Bool}

/-- A process that has left the loop over the entries. -/
def State.past : State → Prop
  | .sleeping _ | .waiting .. | .exiting _ => True
  | _ => False

/-- A process counts at most the files in `b`, when its children count at most those in `js`. -/
inductive Bounded (fs : FileSystem) (mayFail : List CStr → Bool) :
    Process → Multiset (Option Path) → List (Multiset (Option Path)) → Prop
  | start {args : List CStr} {path : CStr} {sleeps : Bool} {n : Node} {b : Multiset (Option Path)}
      (args_eq : readArgs args = .count path sleeps) (listed : Listed fs path.1 n)
      (harmless : Harmless mayFail sleeps path n) (below : filesAt n ≤ b) :
      Bounded fs mayFail ⟨.main (.start args), 0⟩ b []
  | reading {read left : List (CStr × Node)} {l : List (CStr × FileType)} {v : Vars} {units b : Multiset (Option Path)}
      {js : List (Multiset (Option Path))} (stream : (l.filter fun e => !isDot e.1) = left.map fun e => (e.1, e.2.type))
      (entries : ∀ e ∈ left, Unread fs v.path e) (here : HarmlessIn mayFail v.sleeps v.path (read ++ left))
      (harmless : ∀ e ∈ left, Harmless mayFail v.sleeps (deeperPath v.path e.1) e.2)
      (own : (∀ x ∈ read, x.2.type ≠ .reg) → named units = 0) (below : named units + filesOf left + js.sum ≤ b) :
      Bounded fs mayFail ⟨.main (.reading l v), units⟩ b js
  | past {s : State} {units b : Multiset (Option Path)} {js : List (Multiset (Option Path))} (past : s.past)
      (below : named units + js.sum ≤ b) : Bounded fs mayFail ⟨.main s, units⟩ b js
  | execlp {program copy : State} {units b : Multiset (Option Path)}
      (started : Bounded fs mayFail ⟨.main program, 0⟩ b [])
      (failed : mayFail program.args = true → Bounded fs mayFail ⟨.main copy, units⟩ b []) :
      Bounded fs mayFail ⟨.execlp program copy, units⟩ b []

variable {l l' : Process} {units b : Multiset (Option Path)} {js : List (Multiset (Option Path))} {s s' : State}

/-- What the next action of such a process leaves; `new` is what it counts. Only a process that has left the loop over
the entries waits. -/
inductive Stays (fs : FileSystem) (mayFail : List CStr → Bool) (units new b : Multiset (Option Path))
    (js : List (Multiset (Option Path))) : Option (Family.Action State) → Prop
  | crash : Stays fs mayFail units new b js none
  | go {s : State} (bounded : Bounded fs mayFail ⟨.main s, new + units⟩ b js) :
      Stays fs mayFail units new b js (some (.go s))
  | fork {s child : State} {m : Multiset (Option Path)} (bounded : Bounded fs mayFail ⟨.main s, units⟩ b (js ++ [m]))
      (bounded_child : Bounded fs mayFail ⟨.execlp child s, units⟩ m []) :
      Stays fs mayFail units new b js (some (.fork s child))
  | wait {next : ℕ → State} (below : named units + js.sum ≤ b) (past : ∀ status, (next status).past) :
      Stays fs mayFail units new b js (some (.wait next))
  | exit {status : ℕ} : Stays fs mayFail units new b js (some (.exit status))

/-- The next entry is counted, or a child is forked that counts at most what is below its directory, whether `execlp`
fails or not. -/
theorem stays_reading {read left : List (CStr × Node)} {e : CStr × FileType} {l : List (CStr × FileType)} {v : Vars}
    (hl : ((e :: l).filter fun e => !isDot e.1) = left.map fun e => (e.1, e.2.type))
    (hentries : ∀ e ∈ left, Unread fs v.path e) (hhere : HarmlessIn mayFail v.sleeps v.path (read ++ left))
    (hharmless : ∀ e ∈ left, Harmless mayFail v.sleeps (deeperPath v.path e.1) e.2)
    (hown : (∀ x ∈ read, x.2.type ≠ .reg) → named units = 0) (hbelow : named units + filesOf left + js.sum ≤ b) :
    Stays fs mayFail units (countedFile fs stack (.reading (e :: l) v)) b js (step fs stack (.reading (e :: l) v)) := by
  have hentry := entry_step stack hl hentries
  generalize countedFile fs stack (.reading (e :: l) v) = new at hentry ⊢
  generalize step fs stack (.reading (e :: l) v) = act at hentry ⊢
  cases hentry with
  | crash => exact .crash
  | dot hl' =>
    refine .go (.reading hl' hentries hhere hharmless ?_ ?_)
    · rwa [zero_add]
    · rwa [zero_add]
  | @reg name p st left hl' =>
    rw [List.append_cons] at hhere
    obtain ⟨-, hentries'⟩ := List.forall_mem_cons.1 hentries
    obtain ⟨-, hharmless'⟩ := List.forall_mem_cons.1 hharmless
    refine .go (.reading hl' hentries' hhere hharmless' (fun hnone => ?_) ?_)
    · exact absurd rfl (hnone (name, .reg p st) (List.mem_append_right read (List.mem_singleton_self _)))
    · rw [filesOf_cons, filesAt_reg, ← add_assoc] at hbelow
      rwa [named_add, named_some, add_comm {some p}]
  | @dir name p st es left hl' hlisted =>
    obtain ⟨-, hentries'⟩ := List.forall_mem_cons.1 hentries
    obtain ⟨hsub, hharmless'⟩ := List.forall_mem_cons.1 hharmless
    have hfail := hhere read (name, .dir p st es) left rfl rfl
    have hown' : (∀ x ∈ read ++ [(name, Node.dir p st es)], x.2.type ≠ .reg) → named units = 0 := fun hnone =>
      hown fun x hx => hnone x (List.mem_append_left _ hx)
    have hhere' := hhere
    rw [List.append_cons] at hhere'
    rw [filesOf_cons] at hbelow
    apply Stays.fork (m := filesAt (.dir p st es))
    · refine .reading hl' hentries' hhere' hharmless' hown' ?_
      rw [List.sum_append, List.sum_singleton]
      refine (le_of_eq ?_).trans hbelow
      abel
    · apply Bounded.execlp
      · exact .start (readArgs_execArgs v.sleeps v.path name) hlisted hsub le_rfl
      · -- the child that goes on has counted nothing, and nothing is left
        intro hmay
        obtain ⟨hnone, hlater⟩ := hfail hmay
        refine .reading hl' hentries' hhere' hharmless' hown' ?_
        rw [hlater, hown fun x hx => hnone x (List.mem_append_left _ hx)]
        exact Multiset.zero_le _

variable (stack) in
theorem Bounded.stays (h : Bounded fs mayFail ⟨.main s, units⟩ b js) :
    Stays fs mayFail units (countedFile fs stack s) b js (step fs stack s) := by
  cases h with
  | @start args path sleeps n _ hargs hlisted hharmless hbelow =>
    obtain ⟨p, st, es, l, rfl, hl, hentries, hstep⟩ := hlisted.start
    cases hs : step fs stack (.start args) with
    | none => exact .crash
    | some act =>
      cases hstep args hargs act hs
      cases hharmless with
      | leaf hne => exact absurd rfl hne
      | dir hhere hsub =>
        have hhere' : HarmlessIn mayFail sleeps path ([] ++ es) := hhere
        refine .go (.reading hl hentries hhere' hsub (fun _ => by simp [countedFile]) ?_)
        rw [filesAt_dir] at hbelow
        simpa [countedFile] using hbelow
  | @reading read left l v _ _ _ hl hentries hhere hharmless hown hbelow =>
    cases l with
    | nil =>
      obtain rfl : left = [] := List.map_eq_nil_iff.1 hl.symm
      refine .go (.past trivial ?_)
      simpa [countedFile, filesOf] using hbelow
    | cons e l => exact stays_reading hl hentries hhere hharmless hown hbelow
  | past hpast hbelow =>
    cases s with
    | start | reading => cases hpast
    | sleeping v => exact .go (.past trivial (by simpa [countedFile] using hbelow))
    | waiting i v =>
      simp only [step]
      split
      · exact .wait hbelow fun _ => trivial
      · exact .go (.past trivial (by simpa [countedFile] using hbelow))
    | exiting v => exact .exit

/-- What a process has counted at any time, once it is in the code of the program. -/
theorem Bounded.le (h : Bounded fs mayFail ⟨.main s, units⟩ b js) : named units ≤ b := by
  cases h with
  | start => exact Multiset.zero_le _
  | reading hl hentries hhere hharmless hown hbelow =>
    exact (Multiset.le_add_right _ _).trans ((Multiset.le_add_right _ _).trans hbelow)
  | past hpast hbelow => exact (Multiset.le_add_right _ _).trans hbelow

theorem Bounded.main (h : Bounded fs mayFail l b js) (hcode : l.code = .main s) :
    Bounded fs mayFail ⟨.main s, l.units⟩ b js := by
  rwa [← hcode]

theorem Bounded.execlp_cases {program copy : State} (h : Bounded fs mayFail l b js)
    (hcode : l.code = .execlp program copy) : js = [] ∧ Bounded fs mayFail ⟨.main program, 0⟩ b [] ∧
      (mayFail program.args = true → Bounded fs mayFail ⟨.main copy, l.units⟩ b []) := by
  cases h with
  | execlp started failed =>
    cases hcode
    exact ⟨rfl, started, failed⟩
  | start | reading | past => cases hcode

variable (fs stack mayFail) in
/-- A process ends with at most the files it is allowed. -/
def boundedContract : Offspring.Contract (process fs stack mayFail) (Multiset (Option Path)) where
  code b r := named r.2 ≤ b
  Inv := Bounded fs mayFail
  go {l a l' b js} h hP := by
    rcases process_go hP with ⟨program, copy, hcode, hmay, rfl⟩ | ⟨program, copy, hcode, rfl⟩ |
      ⟨s, s', hcode, hstep, rfl⟩
    · obtain ⟨rfl, -, hfailed⟩ := h.execlp_cases hcode
      exact hfailed hmay
    · obtain ⟨rfl, hstarted, -⟩ := h.execlp_cases hcode
      exact hstarted
    · have hstays := (h.main hcode).stays stack
      rw [hstep] at hstays
      cases hstays with
      | go bounded => exact bounded
  fork {l a l' child b js} h hP := by
    obtain ⟨s, s', c, hcode, hstep, rfl, rfl⟩ := process_fork hP
    have hstays := (h.main hcode).stays stack
    rw [hstep] at hstays
    cases hstays with
    | fork bounded bounded_child => exact ⟨_, bounded, bounded_child⟩
  alone {l a l₀ l₁ b} h hP := by
    obtain ⟨s, next, hcode, hstep, rfl, -⟩ := process_wait hP
    have hstays := (h.main hcode).stays stack
    rw [hstep] at hstays
    cases hstays with
    | wait hle hpast => exact .past (hpast _) (by simpa using hle)
  wait {l a l₀ l₁ b js₁ m js₂ r} h hP hr := by
    obtain ⟨s, next, hcode, hstep, -, rfl⟩ := process_wait hP
    have hstays := (h.main hcode).stays stack
    rw [hstep] at hstays
    obtain ⟨hle, hpast⟩ : named l.units + (js₁ ++ m :: js₂).sum ≤ b ∧ ∀ status, (next status).past := by
      cases hstays with
      | wait hle hpast => exact ⟨hle, hpast⟩
    refine .past (hpast _) ?_
    calc named (r.2 + l.units) + (js₁ ++ js₂).sum = named r.2 + (named l.units + (js₁ ++ js₂).sum) := by
          rw [named_add, add_assoc]
      _ ≤ m + (named l.units + (js₁ ++ js₂).sum) := by gcongr
      _ = named l.units + (js₁ ++ m :: js₂).sum := by
          simp only [List.sum_append, List.sum_cons]
          abel
      _ ≤ b := hle
  exit {l a r b js} h hP := by
    obtain ⟨s, hcode, hstep, hunits⟩ := process_exit hP
    rw [hunits]
    exact (h.main hcode).le

variable (fs stack mayFail) in
/-- The first process is never a child before `execlp`. -/
def firstContract : Offspring.Contract (process fs stack mayFail) Bool where
  code _ _ := True
  Inv l first _ := first = true → ∃ s, l.code = .main s
  go h hP := by
    rcases process_go hP with ⟨program, copy, -, -, rfl⟩ | ⟨program, copy, -, rfl⟩ | ⟨s, s', -, -, rfl⟩ <;>
      exact fun _ => ⟨_, rfl⟩
  fork h hP := by
    obtain ⟨s, s', c, -, -, rfl, rfl⟩ := process_fork hP
    exact ⟨false, fun _ => ⟨_, rfl⟩, nofun⟩
  alone h hP := by
    obtain ⟨s, next, -, -, rfl, -⟩ := process_wait hP
    exact fun _ => ⟨_, rfl⟩
  wait h hP _ := by
    obtain ⟨s, next, -, -, -, rfl⟩ := process_wait hP
    exact fun _ => ⟨_, rfl⟩
  exit _ _ := trivial

/-- With calls that fail only where it is harmless, no file is counted twice. -/
theorem countedOnce_of_harmless {args : List CStr} {path : CStr} {sleeps : Bool} {root : Tree}
    (hargs : readArgs args = .count path sleeps) (hroot : Listed fs path.1 root.root)
    (hharmless : Harmless mayFail sleeps path root.root) {p : Offspring.Proc Process (ℕ × Multiset (Option Path))}
    (h : (failingExec fs stack mayFail args).Reachable p) : CountedOnce p := by
  have hle : named (counted p) ≤ filesAt root.root := by
    have hstart : (boundedContract fs stack mayFail).Inv ⟨.main (.start args), 0⟩ (filesAt root.root) [] :=
      .start hargs hroot hharmless le_rfl
    have hfirst : (firstContract fs stack mayFail).Inv ⟨.main (.start args), 0⟩ true [] := fun _ => ⟨_, rfl⟩
    cases p with
    | ended r => exact Offspring.code_of_reachable hstart h
    | run l children =>
      obtain ⟨js, hinv⟩ := Offspring.inv_of_reachable hstart h
      obtain ⟨firsts, hmain⟩ := Offspring.inv_of_reachable hfirst h
      obtain ⟨s, hcode⟩ := hmain rfl
      exact (Bounded.main hinv hcode).le
  intro f
  rw [← count_named]
  exact (Multiset.count_le_of_le _ hle).trans (count_filesAt_le root f)

end Bounded

end Sysopy.FCounter
