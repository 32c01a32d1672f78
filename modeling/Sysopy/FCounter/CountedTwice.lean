/-
The other direction: where a call of `execlp` may fail that is not harmless, some run of fcounter counts a regular file
twice. It is enough to let this one call fail and to run each child to its end as soon as it is forked.
-/
import Sysopy.FCounter.CountedOnce

namespace Sysopy.FCounter

open Sysopy.CText Sysopy.Conc Sysopy.Files

section Computes

variable {fs : FileSystem} {stack : Path → Stat} {mayFail : List CStr → Bool}

/-- What the children have counted. -/
def gathered (vs : List (ℕ × Multiset (Option Path))) : Multiset (Option Path) := (vs.map fun r => named r.2).sum

@[simp] theorem gathered_nil : gathered [] = 0 := rfl

@[simp] theorem gathered_concat (vs : List (ℕ × Multiset (Option Path))) (r : ℕ × Multiset (Option Path)) :
    gathered (vs ++ [r]) = gathered vs + named r.2 := by simp [gathered]

/-- A process comes to its end with at least these files, when each child runs to its end first. -/
def ComputesFrom (fs : FileSystem) (stack : Path → Stat) (mayFail : List CStr → Bool) (l : Process)
    (vs : List (ℕ × Multiset (Option Path))) (files : Multiset (Option Path)) : Prop :=
  ∃ r, Offspring.Computes (process fs stack mayFail) l vs r ∧ files ≤ named r.2

variable {s s' child : State} {l : Process} {units files files' : Multiset (Option Path)}
  {vs : List (ℕ × Multiset (Option Path))} {w : ℕ × Multiset (Option Path)}

theorem ComputesFrom.mono (h : ComputesFrom fs stack mayFail l vs files) (hle : files' ≤ files) :
    ComputesFrom fs stack mayFail l vs files' := by
  obtain ⟨r, hr, hfiles⟩ := h
  exact ⟨r, hr, hle.trans hfiles⟩

theorem ComputesFrom.go (hs : step fs stack s = some (.go s'))
    (h : ComputesFrom fs stack mayFail ⟨.main s', countedFile fs stack s + units⟩ vs files) :
    ComputesFrom fs stack mayFail ⟨.main s, units⟩ vs files := by
  obtain ⟨r, hr, hfiles⟩ := h
  have hnext : process fs stack mayFail ⟨.main s, units⟩ ⟨false, 0⟩ =
      some (.go ⟨.main s', countedFile fs stack s + units⟩) := by simp only [process, hs, Option.map_some, track]
  exact ⟨r, .go hnext hr, hfiles⟩

theorem ComputesFrom.fork (hs : step fs stack s = some (.fork s' child))
    (hchild : Offspring.Computes (process fs stack mayFail) ⟨.execlp child s', units⟩ [] w)
    (h : ComputesFrom fs stack mayFail ⟨.main s', units⟩ (vs ++ [w]) files) :
    ComputesFrom fs stack mayFail ⟨.main s, units⟩ vs files := by
  obtain ⟨r, hr, hfiles⟩ := h
  have hnext : process fs stack mayFail ⟨.main s, units⟩ ⟨false, 0⟩ =
      some (.fork ⟨.main s', units⟩ ⟨.execlp child s', units⟩) := by simp only [process, hs, Option.map_some, track]
  exact ⟨r, .fork hnext hchild hr, hfiles⟩

/-- A child whose `execlp` succeeds. -/
theorem computes_started (h : ComputesFrom fs stack mayFail ⟨.main child, 0⟩ [] files) :
    ComputesFrom fs stack mayFail ⟨.execlp child s', units⟩ [] files := by
  obtain ⟨r, hr, hfiles⟩ := h
  have hnext : process fs stack mayFail ⟨.execlp child s', units⟩ ⟨false, 0⟩ = some (.go ⟨.main child, 0⟩) := rfl
  exact ⟨r, .go hnext hr, hfiles⟩

/-- A child whose `execlp` fails. -/
theorem computes_failed (hmay : mayFail child.args = true)
    (h : ComputesFrom fs stack mayFail ⟨.main s', units⟩ [] files) :
    ComputesFrom fs stack mayFail ⟨.execlp child s', units⟩ [] files := by
  obtain ⟨r, hr, hfiles⟩ := h
  have hnext : process fs stack mayFail ⟨.execlp child s', units⟩ ⟨true, 0⟩ = some (.go ⟨.main s', units⟩) := by
    simp only [process, hmay, Bool.and_self, if_true]
  exact ⟨r, .go hnext hr, hfiles⟩

/-- The loop that waits gathers what the children have counted, and a `wait` without a child changes nothing when
`status` is 0. -/
theorem computes_waiting : ∀ (k i : ℕ) (v : Vars) (units : Multiset (Option Path))
    (vs : List (ℕ × Multiset (Option Path))), i + k = v.proc_count → vs.length ≤ k →
    ComputesFrom fs stack mayFail ⟨.main (.waiting i v), units⟩ vs (named units + gathered vs)
  | 0, i, v, units, vs, hk, hvs => by
    obtain rfl := List.length_eq_zero_iff.1 (Nat.le_zero.1 hvs)
    have hstep : step fs stack (.waiting i v) = some (.go (.exiting v)) := if_neg (by omega)
    have hexit : process fs stack mayFail ⟨.main (.exiting v), 0 + units⟩ ⟨false, 0⟩ =
        some (.exit (exitStatus v.value, 0 + units)) := rfl
    exact .go hstep ⟨_, .exit hexit, by simp⟩
  | k + 1, i, v, units, vs, hk, hvs => by
    let after : ℕ → Vars := fun status =>
      { v with files_in_dir_count := toInt (v.files_in_dir_count + WEXITSTATUS status) }
    have hstep : step fs stack (.waiting i v) = some (.wait fun status => .waiting (i + 1) (after status)) :=
      if_pos (by omega)
    have hnext : process fs stack mayFail ⟨.main (.waiting i v), units⟩ ⟨false, 0⟩ =
        some (.wait ⟨.main (.waiting (i + 1) (after 0)), Multiset.replicate (WEXITSTATUS 0) none + units⟩
          fun r => ⟨.main (.waiting (i + 1) (after r.1)), r.2 + units⟩) := by
      simp only [process, hstep, Option.map_some, track]
    have hleft : i + 1 + k = v.proc_count := by omega
    cases vs with
    | nil =>
      obtain ⟨r, hr, hfiles⟩ := computes_waiting k (i + 1) (after 0)
        (Multiset.replicate (WEXITSTATUS 0) none + units) [] hleft (Nat.zero_le _)
      exact ⟨r, .alone hnext hr, by simpa using hfiles⟩
    | cons w vs =>
      obtain ⟨r, hr, hfiles⟩ := computes_waiting k (i + 1) (after w.1) (w.2 + units) vs hleft
        (Nat.le_of_succ_le_succ hvs)
      refine ⟨r, .wait hnext hr, (le_of_eq ?_).trans hfiles⟩
      simp only [gathered, List.map_cons, List.sum_cons, named_add]
      abel

/-! ### The entries -/

/-- A process in the loop over the entries, with the entries of the tree that it has still to read. -/
structure ReadsOn (fs : FileSystem) (left : List (CStr × Node)) (l : List (CStr × FileType)) (v : Vars)
    (vs : List (ℕ × Multiset (Option Path))) : Prop where
  stream : (l.filter fun e => !isDot e.1) = left.map fun e => (e.1, e.2.type)
  entries : ∀ e ∈ left, Entry fs v.path e
  children : vs.length ≤ v.proc_count

/-- A directory that is counted whole. -/
def Whole (fs : FileSystem) (stack : Path → Stat) (mayFail : List CStr → Bool) (path : CStr) (n : Node) : Prop :=
  ∀ args sleeps, readArgs args = .count path sleeps → Countable fs path.1 n →
    ComputesFrom fs stack mayFail ⟨.main (.start args), 0⟩ [] (filesAt n)

/-- The variables after a regular file has been counted. -/
def Vars.oneMore (v : Vars) : Vars := { v with file_count := toInt (v.file_count + 1) }

/-- The variables after a fork. -/
def Vars.forked (v : Vars) : Vars := { v with proc_count := v.proc_count + 1 }

/-- The next entry is counted, or forked for; "." and ".." are passed over before it. -/
theorem computes_entry {e : CStr × Node} {left : List (CStr × Node)} {v : Vars}
    (hreg : ∀ p st l, e.2 = .reg p st → ReadsOn fs left l v.oneMore vs →
      ComputesFrom fs stack mayFail ⟨.main (.reading l v.oneMore), {some p} + units⟩ vs files)
    (hdir : ∀ l, Countable fs (deeperPath v.path e.1).1 e.2 →
      (∀ vs', vs'.length ≤ v.proc_count + 1 → ReadsOn fs left l v.forked vs') →
      ∃ w, Offspring.Computes (process fs stack mayFail)
        ⟨.execlp (.start (execArgs v.sleeps (deeperPath v.path e.1))) (.reading l v.forked), units⟩ [] w ∧
        ComputesFrom fs stack mayFail ⟨.main (.reading l v.forked), units⟩ (vs ++ [w]) files) :
    ∀ {l : List (CStr × FileType)}, ReadsOn fs (e :: left) l v vs →
      ComputesFrom fs stack mayFail ⟨.main (.reading l v), units⟩ vs files
  | [], h => by cases h.stream
  | x :: l, h => by
    have hentry := entry_step stack h.stream fun e he => (h.entries e he).unread
    generalize hs : step fs stack (.reading (x :: l) v) = act at hentry
    generalize hc : countedFile fs stack (.reading (x :: l) v) = new at hentry
    obtain ⟨he, hentries⟩ := List.forall_mem_cons.1 h.entries
    cases hentry with
    | crash hlong => exact absurd he.short hlong
    | dot hl =>
      refine .go hs ?_
      rw [hc, zero_add]
      exact computes_entry hreg hdir ⟨hl, h.entries, h.children⟩
    | reg hl =>
      refine .go hs ?_
      rw [hc]
      exact hreg _ _ l rfl ⟨hl, hentries, h.children⟩
    | dir hl =>
      obtain ⟨w, hw, hrest⟩ := hdir l (he.countable rfl) fun vs' hvs' => ⟨hl, hentries, hvs'⟩
      exact .fork hs hw hrest

/-- With no entry left the process waits for its children. -/
theorem computes_end {v : Vars} : ∀ {l : List (CStr × FileType)}, ReadsOn fs [] l v vs →
    ComputesFrom fs stack mayFail ⟨.main (.reading l v), units⟩ vs (named units + gathered vs)
  | [], h => by
    have hreading : step fs stack (.reading [] v) = some (.go (.sleeping v)) := rfl
    have hsleeping : step fs stack (.sleeping v) = some (.go (.waiting 0 v)) := rfl
    refine .go hreading (.go hsleeping ?_)
    show ComputesFrom fs stack mayFail ⟨.main (.waiting 0 v), 0 + (0 + units)⟩ vs _
    rw [zero_add, zero_add]
    exact computes_waiting v.proc_count 0 v units vs (Nat.zero_add _) h.children
  | x :: l, h => by
    have hentry := entry_step stack h.stream fun e he => (h.entries e he).unread
    generalize hs : step fs stack (.reading (x :: l) v) = act at hentry
    generalize hc : countedFile fs stack (.reading (x :: l) v) = new at hentry
    cases hentry with
    | dot hl =>
      refine .go hs ?_
      rw [hc, zero_add]
      exact computes_end ⟨hl, h.entries, h.children⟩

/-- A process reads the first entries and forks for their directories. -/
theorem computes_first {rest : List (CStr × Node)} : ∀ (es : List (CStr × Node)) {l : List (CStr × FileType)} {v : Vars}
    {units : Multiset (Option Path)} {vs : List (ℕ × Multiset (Option Path))}, ReadsOn fs (es ++ rest) l v vs →
    (∀ e ∈ es, Whole fs stack mayFail (deeperPath v.path e.1) e.2) →
    (∀ l' v' units' vs', ReadsOn fs rest l' v' vs' → v'.path = v.path → v'.sleeps = v.sleeps →
      named units + filesOf (es.filter fun e => decide (e.2.type = .reg)) ≤ named units' →
      named units + gathered vs + filesOf es ≤ named units' + gathered vs' →
      ComputesFrom fs stack mayFail ⟨.main (.reading l' v'), units'⟩ vs' files) →
    ComputesFrom fs stack mayFail ⟨.main (.reading l v), units⟩ vs files
  | [], l, v, units, vs, h, _, hrest => hrest l v units vs h rfl rfl (by simp [filesOf]) (by simp [filesOf])
  | e :: es, l, v, units, vs, h, hwhole, hrest => by
    obtain ⟨hsub, hwhole'⟩ := List.forall_mem_cons.1 hwhole
    refine computes_entry (fun p st l he h => ?_) (fun l hcountable h' => ?_) h
    · refine computes_first es h hwhole' fun l' v' units' vs' h' hp hsl hown hall => ?_
      refine hrest l' v' units' vs' h' hp hsl ?_ ?_
      · rw [List.filter_cons_of_pos (by rw [he]; rfl), filesOf_cons, he, filesAt_reg]
        refine (le_of_eq ?_).trans hown
        rw [named_add, named_some]
        abel
      · rw [filesOf_cons, he, filesAt_reg]
        refine (le_of_eq ?_).trans hall
        rw [named_add, named_some]
        abel
    · obtain ⟨w, hw, hle⟩ : ComputesFrom fs stack mayFail
          ⟨.execlp (.start (execArgs v.sleeps (deeperPath v.path e.1))) (.reading l v.forked), units⟩ []
          (filesAt e.2) :=
        computes_started (hsub _ v.sleeps (readArgs_execArgs v.sleeps v.path e.1) hcountable)
      refine ⟨w, hw, ?_⟩
      have hchildren := h.children
      have hnext := h' (vs ++ [w]) (by simpa using hchildren)
      refine computes_first es hnext hwhole' fun l' v' units' vs' h' hp hsl hown hall => ?_
      refine hrest l' v' units' vs' h' hp hsl ?_ ?_
      · rw [List.filter_cons_of_neg (by rw [hcountable.isDir]; decide)]
        exact hown
      · rw [filesOf_cons]
        refine le_trans ?_ hall
        rw [gathered_concat]
        calc named units + gathered vs + (filesAt e.2 + filesOf es) ≤
              named units + gathered vs + (named w.2 + filesOf es) := by gcongr
          _ = named units + (gathered vs + named w.2) + filesOf es := by abel

/-- All entries are read. -/
theorem computes_reading {es : List (CStr × Node)} {l : List (CStr × FileType)} {v : Vars} (h : ReadsOn fs es l v vs)
    (hwhole : ∀ e ∈ es, Whole fs stack mayFail (deeperPath v.path e.1) e.2) :
    ComputesFrom fs stack mayFail ⟨.main (.reading l v), units⟩ vs (named units + gathered vs + filesOf es) := by
  rw [← List.append_nil es] at h
  exact computes_first es h hwhole fun l' v' units' vs' h' _ _ _ hall => (computes_end h').mono hall

/-- Every directory is counted whole when no call fails. -/
theorem whole (path : CStr) (n : Node) : Whole fs stack mayFail path n := by
  induction n using Node.entryInduction generalizing path with
  | reg | other | dangling | lnk => exact fun _ _ _ h => by cases h.isDir
  | dir p st es ih =>
    intro args sleeps hargs hcountable
    obtain ⟨_, _, _, l, he, -, hstep, hl, hentries⟩ := step_start stack hargs hcountable
    cases he
    have hreading : ComputesFrom fs stack mayFail ⟨.main (.reading l ⟨path, sleeps, 0, 0, 0⟩), 0⟩ [] _ :=
      computes_reading ⟨hl, hentries, Nat.zero_le _⟩ fun e he => ih e he _
    refine .go hstep ?_
    rw [filesAt_dir]
    simpa [countedFile] using hreading

/-- A child counts `files`, and its parent what is left besides. -/
theorem computes_rest {left : List (CStr × Node)} {l : List (CStr × FileType)} {v : Vars}
    (hchild : ComputesFrom fs stack mayFail ⟨.execlp child s', units⟩ [] files)
    (h : ∀ vs', vs'.length ≤ v.proc_count + 1 → ReadsOn fs left l v.forked vs') (hvs : vs.length ≤ v.proc_count) :
    ∃ w, Offspring.Computes (process fs stack mayFail) ⟨.execlp child s', units⟩ [] w ∧
      ComputesFrom fs stack mayFail ⟨.main (.reading l v.forked), units⟩ (vs ++ [w])
        (files + (named units + gathered vs + filesOf left)) := by
  obtain ⟨w, hw, hle⟩ := hchild
  have hreads : ReadsOn fs left l v.forked (vs ++ [w]) := h (vs ++ [w]) (by simpa using hvs)
  have hrest : ComputesFrom fs stack mayFail ⟨.main (.reading l v.forked), units⟩ (vs ++ [w]) _ :=
    computes_reading hreads fun _ _ => whole _ _
  refine ⟨w, hw, hrest.mono ?_⟩
  rw [gathered_concat]
  calc files + (named units + gathered vs + filesOf left) ≤ named w.2 + (named units + gathered vs + filesOf left) := by
        gcongr
    _ = named units + (gathered vs + named w.2) + filesOf left := by abel

/-- The child goes on and counts what its parent counts: the files of the directory that came before, and what is at or
below the later entries. -/
theorem computes_twice {es₁ es₂ : List (CStr × Node)} {e : CStr × Node} {l : List (CStr × FileType)} {v : Vars}
    (h : ReadsOn fs (es₁ ++ e :: es₂) l v []) (hdir : e.2.type = .dir)
    (hmay : mayFail (execArgs v.sleeps (deeperPath v.path e.1)) = true) :
    ComputesFrom fs stack mayFail ⟨.main (.reading l v), units⟩ []
      (2 • (filesOf (es₁.filter fun e => decide (e.2.type = .reg)) + filesOf es₂)) := by
  refine computes_first es₁ h (fun _ _ => whole _ _) fun l' v' units' vs' h' hp hsl hown _ => ?_
  refine computes_entry (fun p st l he => ?_) (fun l _ h'' => ?_) h'
  · rw [he] at hdir
    cases hdir
  · have hchild : ComputesFrom fs stack mayFail
        ⟨.execlp (.start (execArgs v'.sleeps (deeperPath v'.path e.1))) (.reading l v'.forked), units'⟩ []
        (named units' + gathered [] + filesOf es₂) := by
      refine computes_failed ?_ (computes_reading (h'' [] (Nat.zero_le _)) fun _ _ => whole _ _)
      rw [hp, hsl]
      exact hmay
    obtain ⟨w, hw, hrest⟩ := computes_rest hchild h'' h'.children
    refine ⟨w, hw, hrest.mono ?_⟩
    have hunits : filesOf (es₁.filter fun e => decide (e.2.type = .reg)) + filesOf es₂ ≤
        named units' + filesOf es₂ := by
      gcongr
      exact (Multiset.le_add_left _ _).trans hown
    rw [gathered_nil, add_zero, two_nsmul]
    refine add_le_add hunits (hunits.trans ?_)
    calc named units' + filesOf es₂ ≤ named units' + filesOf es₂ + gathered vs' := Multiset.le_add_right _ _
      _ = named units' + gathered vs' + filesOf es₂ := by abel

theorem filesOf_eq_zero_iff {es : List (CStr × Node)} : filesOf es = 0 ↔ ∀ e ∈ es, filesAt e.2 = 0 := by
  unfold filesOf
  rw [List.sum_eq_zero_iff, List.forall_mem_map]

/-- A regular file among the entries is one of the files. -/
theorem filesOf_ne_zero {es : List (CStr × Node)} {x : CStr × Node} (hx : x ∈ es) (hreg : x.2.type = .reg) :
    filesOf es ≠ 0 := by
  intro hc
  have hnone := filesOf_eq_zero_iff.1 hc x hx
  obtain ⟨name, n⟩ := x
  cases n with
  | reg p st => exact Multiset.singleton_ne_zero (some p) hnone
  | other | lnk | dir => cases hreg

/-- Where a call may fail that is not harmless there is something to count twice. -/
theorem exists_of_not_harmlessIn {sleeps : Bool} {path : CStr} {es : List (CStr × Node)}
    (h : ¬ HarmlessIn mayFail sleeps path es) : ∃ es₁ e es₂, es = es₁ ++ e :: es₂ ∧ e.2.type = .dir ∧
      mayFail (execArgs sleeps (deeperPath path e.1)) = true ∧
      filesOf (es₁.filter fun e => decide (e.2.type = .reg)) + filesOf es₂ ≠ 0 := by
  unfold HarmlessIn at h
  push Not at h
  obtain ⟨es₁, e, es₂, rfl, hdir, hmay, hfiles⟩ := h
  refine ⟨es₁, e, es₂, rfl, hdir, hmay, fun hzero => ?_⟩
  obtain ⟨hown, hlater⟩ := add_eq_zero.1 hzero
  refine hfiles (fun x hx hreg => ?_) hlater
  rcases List.mem_append.1 hx with hx | hx
  · exact filesOf_ne_zero (List.mem_filter.2 ⟨hx, by rw [hreg]; rfl⟩) hreg hown
  · rcases List.mem_cons.1 hx with rfl | hx
    · rw [hreg] at hdir
      cases hdir
    · exact filesOf_ne_zero hx hreg hlater

variable (fs stack) in
/-- Then some file is counted twice by the first process. -/
theorem exists_twice {path : CStr} {sleeps : Bool} {n : Node} (hharm : ¬ Harmless mayFail sleeps path n) :
    ∃ x, ∀ args, readArgs args = .count path sleeps → Countable fs path.1 n →
      ComputesFrom fs stack mayFail ⟨.main (.start args), 0⟩ [] (2 • {x}) := by
  induction n using Node.entryInduction generalizing path with
  | reg | other | dangling | lnk => exact absurd (.leaf nofun) hharm
  | dir p st es ih =>
    by_cases hhere : HarmlessIn mayFail sleeps path es
    · -- in some subdirectory
      obtain ⟨e, he, hsub⟩ : ∃ e ∈ es, ¬ Harmless mayFail sleeps (deeperPath path e.1) e.2 := by
        by_contra hc
        push Not at hc
        exact hharm (.dir hhere hc)
      obtain ⟨x, hx⟩ := ih e he hsub
      obtain ⟨es₁, es₂, rfl⟩ := List.append_of_mem he
      refine ⟨x, fun args hargs hcountable => ?_⟩
      obtain ⟨_, _, _, l, hn, -, hstep, hl, hentries⟩ := step_start stack hargs hcountable
      cases hn
      have hreads : ReadsOn fs (es₁ ++ e :: es₂) l ⟨path, sleeps, 0, 0, 0⟩ [] := ⟨hl, hentries, Nat.zero_le _⟩
      refine .go hstep (computes_first es₁ hreads (fun _ _ => whole _ _) fun l' v' units' vs' h' hp hsl _ _ => ?_)
      refine computes_entry (fun p st l he' => ?_) (fun l hcountable' h'' => ?_) h'
      · exact absurd (.leaf (by rw [he']; exact nofun)) hsub
      · rw [hp] at hcountable'
        have hchild : ComputesFrom fs stack mayFail
            ⟨.execlp (.start (execArgs v'.sleeps (deeperPath v'.path e.1))) (.reading l v'.forked), units'⟩ []
            (2 • {x}) := by
          rw [hp, hsl]
          exact computes_started (hx _ (readArgs_execArgs sleeps path e.1) hcountable')
        obtain ⟨w, hw, hrest⟩ := computes_rest hchild h'' h'.children
        exact ⟨w, hw, hrest.mono (Multiset.le_add_right _ _)⟩
    · obtain ⟨es₁, e, es₂, rfl, hdir, hmay, hne⟩ := exists_of_not_harmlessIn hhere
      obtain ⟨x, hx⟩ := Multiset.exists_mem_of_ne_zero hne
      refine ⟨x, fun args hargs hcountable => ?_⟩
      obtain ⟨_, _, _, l, hn, -, hstep, hl, hentries⟩ := step_start stack hargs hcountable
      cases hn
      have htwice : ComputesFrom fs stack mayFail ⟨.main (.reading l ⟨path, sleeps, 0, 0, 0⟩), 0 + 0⟩ [] _ :=
        computes_twice ⟨hl, hentries, Nat.zero_le _⟩ hdir hmay
      exact .go hstep (htwice.mono (nsmul_le_nsmul_right (Multiset.singleton_le.2 hx) 2))

/-- A file that is counted twice when a process has ended. -/
theorem ComputesFrom.twice {start : Process} {x : Option Path} (h : ComputesFrom fs stack mayFail start [] (2 • {x})) :
    ∃ p, (Offspring.system (process fs stack mayFail) start).Reachable p ∧ x.isSome ∧ 2 ≤ (counted p).count x := by
  obtain ⟨r, hr, hle⟩ := h
  have hcount : 2 ≤ (named r.2).count x := by
    have hle' := Multiset.count_le_of_le x hle
    rwa [Multiset.count_nsmul, Multiset.count_singleton_self, Nat.mul_one] at hle'
  have hsome : x.isSome := by
    have hx : x ∈ named r.2 := Multiset.count_pos.1 (by omega)
    exact (Multiset.mem_filter.1 hx).2
  refine ⟨.ended r, hr.reachable, hsome, hcount.trans ?_⟩
  exact Multiset.count_le_of_le x (Multiset.filter_le _ _)

end Computes

/-! ## Which files are counted once -/

section Once

variable {fs : FileSystem} {stack : Path → Stat} {mayFail : List CStr → Bool} {args : List CStr} {path : CStr}
  {sleeps : Bool} {root : Tree}

/-- If no run counts a file twice, then the calls that may fail are harmless. -/
theorem harmless_of_countedOnce (hargs : readArgs args = .count path sleeps) (hroot : Countable fs path.1 root.root)
    (honce : ∀ p, (failingExec fs stack mayFail args).Reachable p → CountedOnce p) :
    Harmless mayFail sleeps path root.root := by
  by_contra hharm
  obtain ⟨x, hx⟩ := exists_twice fs stack hharm
  obtain ⟨p, hp, hsome, htwice⟩ := (hx args hargs hroot).twice
  obtain ⟨f, rfl⟩ := Option.isSome_iff_exists.1 hsome
  have hle := honce p hp f
  omega

variable (stack mayFail) in
/-- Whatever calls of `execlp` fail, in every state of every run the first process has counted no regular file twice if
those that may fail are harmless; and only then, if all pathnames fit into their arrays. -/
theorem countedOnce_iff (hargs : readArgs args = .count path sleeps) (hroot : Listed fs path.1 root.root) :
    (Harmless mayFail sleeps path root.root → ∀ p, (failingExec fs stack mayFail args).Reachable p → CountedOnce p) ∧
    (Countable fs path.1 root.root →
      ((∀ p, (failingExec fs stack mayFail args).Reachable p → CountedOnce p) ↔
        Harmless mayFail sleeps path root.root)) := by
  have honce : Harmless mayFail sleeps path root.root →
      ∀ p, (failingExec fs stack mayFail args).Reachable p → CountedOnce p :=
    fun hharm p hp => countedOnce_of_harmless hargs hroot hharm hp
  refine ⟨honce, fun hcountable => ?_⟩
  constructor
  · exact harmless_of_countedOnce hargs hcountable
  · exact honce

end Once

/-- A directory with a file below a directory with nothing else. -/
def oneBelow : List (Path × Node) :=
  let b := Node.reg "/t/d/b".toList regular644
  let d := Node.dir "/t/d".toList directory755 [(⟨"b".toList, nul_not_mem_nameB⟩, b)]
  let t := Node.dir "/t".toList directory755 [(⟨"d".toList, nul_not_mem_nameD⟩, d)]
  [(".".toList, t), ("./d".toList, d), ("./d/b".toList, b)]

def oneBelowTree : Tree := ⟨(oneBelow.head (by decide)).2, rfl, by decide⟩

theorem oneBelow_countable : Countable (fileSystem oneBelow) dot.1 oneBelowTree.root where
  isDir := rfl
  plain := .dir rfl (List.forall_mem_singleton.2 (.dir rfl (List.forall_mem_singleton.2 (.reg rfl))))
  short := by decide
  mounted := by
    refine mounted_fileSystem rfl (by decide) (by decide) (List.forall_mem_singleton.2 ?_)
    refine mounted_fileSystem rfl (by decide) (by decide) (List.forall_mem_singleton.2 ?_)
    exact .leaf nofun (resolves_fileSystem rfl)

/-- A directory with one entry is harmless. -/
theorem harmlessIn_singleton (mayFail : List CStr → Bool) (sleeps : Bool) (path : CStr) (e : CStr × Node) :
    HarmlessIn mayFail sleeps path [e] := by
  intro es₁ e' es₂ he hdir _
  rcases List.append_eq_singleton_iff.1 he.symm with ⟨-, hcons⟩ | ⟨-, hcons⟩
  · cases hcons
    refine ⟨List.forall_mem_singleton.2 ?_, rfl⟩
    rw [hdir]
    exact nofun
  · cases hcons

theorem oneBelow_harmless : Harmless (fun _ => true) false dot oneBelowTree.root := by
  refine .dir (harmlessIn_singleton _ _ _ _) (List.forall_mem_singleton.2 ?_)
  exact .dir (harmlessIn_singleton _ _ _ _) (List.forall_mem_singleton.2 (.leaf nofun))

/-- Its file is counted once, whatever calls fail. -/
theorem countedOnce_oneBelow : Harmless (fun _ => true) false dot oneBelowTree.root ∧ ∀ p,
    (failingExec (fileSystem oneBelow) (fun _ => regular644) (fun _ => true) []).Reachable p → CountedOnce p := by
  refine ⟨oneBelow_harmless, ?_⟩
  exact (countedOnce_iff (fun _ => regular644) (fun _ => true) rfl oneBelow_countable.listed).1 oneBelow_harmless

/-- With a file before a directory, a call that fails makes the file count twice. -/
theorem twoFiles_twice : Countable (fileSystem twoFiles) dot.1 (twoFiles.head (by decide)).2 ∧ ∃ p,
    (failingExec (fileSystem twoFiles) (fun _ => regular644) (fun _ => true) []).Reachable p ∧ ¬ CountedOnce p := by
  refine ⟨twoFiles_countable, ?_⟩
  obtain ⟨p, st, es, l, hn, -, hstep, hl, hentries⟩ :=
    step_start (fun _ => regular644) (show readArgs [] = .count dot false from rfl) twoFiles_countable
  cases hn
  have hreads : ReadsOn (fileSystem twoFiles) ([(_, Node.reg "/t/a".toList regular644)] ++ (_, Node.dir _ _ _) :: []) l
      ⟨dot, false, 0, 0, 0⟩ [] := ⟨hl, hentries, Nat.zero_le _⟩
  have htwice : ComputesFrom _ (fun _ => regular644) (fun _ => true) ⟨.main (.start []), 0⟩ []
      (2 • {some "/t/a".toList}) := .go hstep (computes_twice hreads rfl rfl)
  obtain ⟨p, hp, -, hcount⟩ := htwice.twice
  refine ⟨p, hp, fun honce => ?_⟩
  have hle := honce "/t/a".toList
  omega

end Sysopy.FCounter
