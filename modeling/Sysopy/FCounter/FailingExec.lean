/-
fcounter (cw03/zad2) when calls of `execlp` may fail. The child does not end then: it goes on in the loop over the
entries, with a copy of the variables and of the directory stream behind the entry just read, and its status is added
by its parent like any other. Everything else is as in `Sysopy.FCounter.Model`.
-/
import Sysopy.Conc.Offspring
import Sysopy.FCounter.Total

namespace Sysopy.FCounter

open Sysopy.CText Sysopy.Conc Sysopy.Files

/-! ## Processes -/

/-- Where a process is: in the code of the program, or a child before `execlp`, with the program it asks for and the
copy it goes on with when the call fails. -/
inductive Code where
  | main (s : State)
  | execlp (program copy : State)

/-- A process. `units` is a history it never reads: what each unit of the number it has counted stands for, a regular
file, by the path that `realpath` gives, or nothing, when it comes from a `status` that `wait` has not set. A parent is
given all units of a child that ends, though of their number `wait` passes on the low byte only: the history says
which files have been counted, and `counted_sound` that the value agrees with it up to that byte. -/
structure Process where
  code : Code
  units : Multiset (Option Path)

/-- What the environment chooses: whether `execlp` fails, and what `status` holds after a `wait` that fails. -/
structure Choice where
  fails : Bool
  status : ℕ

/-- The arguments behind `argv[0]` of a program that is started. -/
def State.args : State → List CStr
  | .start args => args
  | _ => []

section Step

variable (fs : FileSystem) (stack : Path → Stat) (mayFail : List CStr → Bool)

/-- The regular file that the next turn of the loop over the entries counts. -/
def countedFile : State → Multiset (Option Path)
  | .reading (e :: _) v =>
    if strcmp e.1.1 ".".toList ≠ 0 ∧ strcmp e.1.1 "..".toList ≠ 0 then
      let deeper_path := deeperPath v.path e.1
      let my_stat := (fs.stat deeper_path.1).getD (stack deeper_path.1)
      if S_ISDIR my_stat.mode then 0 else if S_ISREG my_stat.mode then {some (fs.realpath deeper_path.1)} else 0
    else 0
  | _ => 0

/-- An action of the program, with the units. A process that waits without a child goes on with whatever `status`
holds. -/
def track (l : Process) (s : State) (status : ℕ) :
    Family.Action State → Offspring.Action Process (ℕ × Multiset (Option Path))
  | .go s' => .go ⟨.main s', countedFile fs stack s + l.units⟩
  | .fork s' child => .fork ⟨.main s', l.units⟩ ⟨.execlp child s', l.units⟩
  | .wait next => .wait ⟨.main (next status), Multiset.replicate (WEXITSTATUS status) none + l.units⟩
      fun r => ⟨.main (next r.1), r.2 + l.units⟩
  | .exit status => .exit (status, l.units)

/-- What a process does next, when the calls of `execlp` with the given arguments may fail. -/
def process (l : Process) (a : Choice) : Option (Offspring.Action Process (ℕ × Multiset (Option Path))) :=
  match l.code with
  | .execlp program copy =>
    if a.fails && mayFail program.args then some (.go ⟨.main copy, l.units⟩) else some (.go ⟨.main program, 0⟩)
  | .main s => (step fs stack s).map (track fs stack l s a.status)

/-- All runs of `fcounter` with the given arguments. -/
def failingExec (args : List CStr) :
    System (Offspring.Proc Process (ℕ × Multiset (Option Path))) (List ℕ × ℕ × Choice) :=
  Offspring.system (process fs stack mayFail) ⟨.main (.start args), 0⟩

end Step

/-- What the first process has counted. -/
def counted : Offspring.Proc Process (ℕ × Multiset (Option Path)) → Multiset (Option Path)
  | .run l _ => l.units
  | .ended r => r.2

/-- No regular file stands behind two units of what the first process has counted, whether or not the low byte of a
status hides one of them. -/
def CountedOnce (p : Offspring.Proc Process (ℕ × Multiset (Option Path))) : Prop :=
  ∀ f, (counted p).count (some f) ≤ 1

/-! ## What a process does -/

section Cases

variable {fs : FileSystem} {stack : Path → Stat} {mayFail : List CStr → Bool} {l l' : Process} {a : Choice}

theorem process_go (h : process fs stack mayFail l a = some (.go l')) :
    (∃ program copy, l.code = .execlp program copy ∧ mayFail program.args = true ∧ l' = ⟨.main copy, l.units⟩) ∨
    (∃ program copy, l.code = .execlp program copy ∧ l' = ⟨.main program, 0⟩) ∨
    ∃ s s', l.code = .main s ∧ step fs stack s = some (.go s') ∧ l' = ⟨.main s', countedFile fs stack s + l.units⟩ := by
  unfold process at h
  split at h
  · rename_i program copy hcode
    split at h
    · rename_i hfails
      cases h
      exact .inl ⟨program, copy, hcode, (Bool.and_eq_true_iff.1 hfails).2, rfl⟩
    · cases h
      exact .inr (.inl ⟨program, copy, hcode, rfl⟩)
  · rename_i s hcode
    obtain ⟨act, hstep, htrack⟩ := Option.map_eq_some_iff.1 h
    cases act <;> cases htrack
    exact .inr (.inr ⟨s, _, hcode, hstep, rfl⟩)

/-- The other actions are those of the program. -/
theorem process_main {act : Offspring.Action Process (ℕ × Multiset (Option Path))}
    (h : process fs stack mayFail l a = some act) (hgo : ∀ l', act ≠ .go l') :
    ∃ s act', l.code = .main s ∧ step fs stack s = some act' ∧ act = track fs stack l s a.status act' := by
  unfold process at h
  split at h
  · split at h <;> cases h <;> exact absurd rfl (hgo _)
  · rename_i s hcode
    obtain ⟨act', hstep, htrack⟩ := Option.map_eq_some_iff.1 h
    exact ⟨s, act', hcode, hstep, htrack.symm⟩

theorem process_fork {child : Process} (h : process fs stack mayFail l a = some (.fork l' child)) :
    ∃ s s' c, l.code = .main s ∧ step fs stack s = some (.fork s' c) ∧ l' = ⟨.main s', l.units⟩ ∧
      child = ⟨.execlp c s', l.units⟩ := by
  obtain ⟨s, act, hcode, hstep, htrack⟩ := process_main h (by rintro _ ⟨⟩)
  cases act <;> cases htrack
  exact ⟨s, _, _, hcode, hstep, rfl, rfl⟩

theorem process_wait {l₀ : Process} {l₁ : ℕ × Multiset (Option Path) → Process}
    (h : process fs stack mayFail l a = some (.wait l₀ l₁)) : ∃ s next, l.code = .main s ∧
      step fs stack s = some (.wait next) ∧
      l₀ = ⟨.main (next a.status), Multiset.replicate (WEXITSTATUS a.status) none + l.units⟩ ∧
      l₁ = fun r => ⟨.main (next r.1), r.2 + l.units⟩ := by
  obtain ⟨s, act, hcode, hstep, htrack⟩ := process_main h (by rintro _ ⟨⟩)
  cases act <;> cases htrack
  exact ⟨s, _, hcode, hstep, rfl, rfl⟩

theorem process_exit {r : ℕ × Multiset (Option Path)} (h : process fs stack mayFail l a = some (.exit r)) :
    ∃ s, l.code = .main s ∧ step fs stack s = some (.exit r.1) ∧ r.2 = l.units := by
  obtain ⟨s, act, hcode, hstep, htrack⟩ := process_main h (by rintro _ ⟨⟩)
  cases act <;> cases htrack
  exact ⟨s, hcode, hstep, rfl⟩

end Cases

/-! ## What the units are -/

section Units

variable {fs : FileSystem} {stack : Path → Stat} {mayFail : List CStr → Bool} {units : Multiset (Option Path)}

/-- The value of a process has as many units as recorded, up to the low byte. -/
def Behind (units : Multiset (Option Path)) : State → Prop
  | .start _ => units = 0
  | .reading _ v | .sleeping v | .waiting _ v | .exiting v => v.value % 256 = (units.card : ℤ) % 256

/-- The next action of a process keeps its units behind its value; `new` is what it counts. -/
inductive Adds (units new : Multiset (Option Path)) : Option (Family.Action State) → Prop
  | crash : Adds units new none
  | go {s : State} (behind : Behind (new + units) s) : Adds units new (some (.go s))
  | fork {s child : State} (behind : Behind units s) (start : Behind 0 child) : Adds units new (some (.fork s child))
  | wait {next : ℕ → State} (behind : ∀ (status : ℕ) (more : Multiset (Option Path)),
      WEXITSTATUS status = more.card % 256 → Behind (more + units) (next status)) : Adds units new (some (.wait next))
  | exit {status : ℕ} (code : WEXITSTATUS status = units.card % 256) : Adds units new (some (.exit status))

theorem value_emod (v : Vars) : v.value % 256 = (v.file_count + v.files_in_dir_count) % 256 := toInt_emod _

theorem adds_countEntry {e : CStr × FileType} {entries : List (CStr × FileType)} {v : Vars}
    (h : v.value % 256 = (units.card : ℤ) % 256) :
    Adds units (countedFile fs stack (.reading (e :: entries) v)) (countEntry fs stack e.1 entries v) := by
  have hsame : Behind (0 + units) (.reading entries v) := by
    rw [zero_add]
    exact h
  by_cases hname : strcmp e.1.1 ".".toList ≠ 0 ∧ strcmp e.1.1 "..".toList ≠ 0
  · simp only [countEntry, countedFile, if_pos hname]
    by_cases hlen : (deeperPath v.path e.1).1.length < PATH_LENGTH
    · simp only [if_pos hlen]
      by_cases hdir : S_ISDIR ((fs.stat (deeperPath v.path e.1).1).getD (stack (deeperPath v.path e.1).1)).mode = true
      · rw [if_pos hdir, if_pos hdir]
        have hbehind : Behind units (.reading entries { v with proc_count := v.proc_count + 1 }) := h
        exact .fork hbehind rfl
      · rw [if_neg hdir, if_neg hdir]
        split
        · refine .go ?_
          rw [value_emod] at h
          simp only [Behind, value_emod, Multiset.card_add, Multiset.card_singleton]
          have hadd := toInt_emod (v.file_count + 1)
          push_cast
          omega
        · exact .go hsame
    · rw [if_neg hlen]
      exact .crash
  · simp only [countEntry, countedFile, if_neg hname]
    exact .go hsame

variable (fs stack) in
theorem adds_step {s : State} (h : Behind units s) : Adds units (countedFile fs stack s) (step fs stack s) := by
  have hzero : ∀ s, Behind units s → Behind (0 + units) s := fun s hs => by rwa [zero_add]
  cases s with
  | start args =>
    cases (show units = 0 from h)
    cases hargs : readArgs args with
    | usage =>
      simp only [step, hargs]
      refine .exit ?_
      rw [exitStatus, WEXITSTATUS_shift]
      rfl
    | count path sleeps =>
      simp only [step, hargs]
      split
      · cases fs.readdir path.1 with
        | none => exact .crash
        | some entries => exact .go rfl
      · exact .crash
  | reading entries v =>
    cases entries with
    | nil => exact .go (hzero (.sleeping v) h)
    | cons e entries => exact adds_countEntry h
  | sleeping v => exact .go (hzero (.waiting 0 v) h)
  | waiting i v =>
    simp only [step]
    split
    · refine .wait fun status more hmore => ?_
      have hv : v.value % 256 = (units.card : ℤ) % 256 := h
      rw [value_emod] at hv
      have hadd := toInt_emod (v.files_in_dir_count + WEXITSTATUS status)
      simp only [Behind, value_emod, Multiset.card_add]
      push_cast
      omega
    · exact .go (hzero (.exiting v) h)
  | exiting v =>
    refine .exit ?_
    have hlow := WEXITSTATUS_exitStatus v.value
    have hv : v.value % 256 = (units.card : ℤ) % 256 := h
    omega

/-- The units of a process stand behind its value, those of a child before `execlp` behind that of the copy. -/
def Process.Sound (l : Process) : Prop :=
  match l.code with
  | .main s => Behind l.units s
  | .execlp program copy => Behind 0 program ∧ Behind l.units copy

theorem Process.Sound.main {l : Process} {s : State} (h : l.Sound) (hcode : l.code = .main s) : Behind l.units s := by
  unfold Process.Sound at h
  rwa [hcode] at h

theorem Process.Sound.execlp {l : Process} {program copy : State} (h : l.Sound)
    (hcode : l.code = .execlp program copy) : Behind 0 program ∧ Behind l.units copy := by
  unfold Process.Sound at h
  rwa [hcode] at h

/-- What a process ends with: the low byte of its status is that of the number of its units. -/
def soundContract (fs : FileSystem) (stack : Path → Stat) (mayFail : List CStr → Bool) :
    Offspring.Contract (process fs stack mayFail) Unit where
  code _ r := WEXITSTATUS r.1 = r.2.card % 256
  Inv l _ _ := l.Sound
  go {l a l' _ _} h hP := by
    rcases process_go hP with ⟨program, copy, hcode, -, rfl⟩ | ⟨program, copy, hcode, rfl⟩ | ⟨s, s', hcode, hstep, rfl⟩
    · exact (h.execlp hcode).2
    · exact (h.execlp hcode).1
    · have hadds := adds_step fs stack (h.main hcode)
      rw [hstep] at hadds
      cases hadds with
      | go behind => exact behind
  fork {l a l' child _ _} h hP := by
    obtain ⟨s, s', c, hcode, hstep, rfl, rfl⟩ := process_fork hP
    have hadds := adds_step fs stack (h.main hcode)
    rw [hstep] at hadds
    cases hadds with
    | fork behind start => exact ⟨(), behind, start, behind⟩
  alone {l a l₀ l₁ _} h hP := by
    obtain ⟨s, next, hcode, hstep, rfl, -⟩ := process_wait hP
    have hadds := adds_step fs stack (h.main hcode)
    rw [hstep] at hadds
    cases hadds with
    | wait behind =>
      refine behind a.status _ ?_
      rw [Multiset.card_replicate, Nat.mod_eq_of_lt (WEXITSTATUS_lt a.status)]
  wait {l a l₀ l₁ _ _ _ _ r} h hP hr := by
    obtain ⟨s, next, hcode, hstep, -, rfl⟩ := process_wait hP
    have hadds := adds_step fs stack (h.main hcode)
    rw [hstep] at hadds
    cases hadds with
    | wait behind => exact behind r.1 r.2 hr
  exit {l a r _ _} h hP := by
    obtain ⟨s, hcode, hstep, hunits⟩ := process_exit hP
    have hadds := adds_step fs stack (h.main hcode)
    rw [hstep] at hadds
    cases hadds with
    | exit code => rwa [hunits]

/-- In every state of every run the first process has counted as many units as recorded, up to the low byte. -/
theorem counted_sound {args : List CStr} {l : Process} {children : List (Offspring.Proc Process _)}
    (h : (failingExec fs stack mayFail args).Reachable (.run l children)) : l.Sound := by
  have hstart : (soundContract fs stack mayFail).Inv ⟨.main (.start args), 0⟩ () [] :=
    show Behind 0 (.start args) from rfl
  obtain ⟨js, hsound⟩ := Offspring.inv_of_reachable hstart h
  exact hsound

end Units

end Sysopy.FCounter
