/-
The start of the reader and writer programs of cw07/zad2 on a system without the named semaphores and the shared
memory object: `init_sem` and `init_shm`, one call or one cell at a time. `init_sem` goes wrong when a process
starts while another is between two calls: it finds "mutex" existing and "wrt" not. `init_shm` goes wrong for every
process that finds the object existing: its creator may still be writing the cells, and `sizeof(data)` is the size of
a pointer, so that the process itself cuts the table to two cells before it uses it.
-/
import Sysopy.Conc.Segment
import Sysopy.ReadersWriters.Model

namespace Sysopy.ReadersWriters

open Sysopy.Conc

variable {MAX : ℕ}

/-! ## init_sem and init_shm -/

/-- What a `sem_t*` in `sems` is. -/
inductive Handle
  | null
  | failed
  | opened
  deriving DecidableEq, Repr

/-- The named semaphores that exist, with their values, and the shared memory object. -/
structure Objects (MAX : ℕ) where
  sem : Sem → Option ℕ
  shm : Segment MAX
  data : Fin MAX → ℤ

/-- The next call of `init_sem` or `init_shm`. -/
inductive Call
  | createMutex
  | createWrt
  | openMutex
  | openWrt
  | shmCreate
  | ftruncate
  | mmap
  | write (i : ℕ)
  | shmOpen
  | ftruncateExisting
  | mmapExisting
  | loop
  deriving DecidableEq, Repr

/-- A process: its `sems`, and where it is up to its loop. -/
structure Stage where
  sems : Sem → Handle
  call : Call

/-- The cells that `sizeof(data)` bytes hold: an `int *` has 8 bytes and an `int` 4. -/
def kept : ℕ := 8 / 4

/-- `ftruncate(fd, sizeof(data))`: the cells behind the end of the object, in the same page, read 0 from then on. -/
def ftruncate (g : Objects MAX) : Objects MAX :=
  { g with shm := g.shm.cut kept, data := fun k => if k.val < kept then g.data k else 0 }

/-- `sem_open(name, O_CREAT | O_EXCL, 0644, 1)` -/
def semCreate (g : Objects MAX) (name : Sem) : Objects MAX × Handle :=
  if g.sem name = none then ({ g with sem := Function.update g.sem name (some 1) }, .opened) else (g, .failed)

/-- `sem_open(name, 0, 0644, 0)` -/
def semOpen (g : Objects MAX) (name : Sem) : Handle := if g.sem name = none then .failed else .opened

theorem semCreate_of_none {g : Objects MAX} {name : Sem} (h : g.sem name = none) :
    semCreate g name = ({ g with sem := Function.update g.sem name (some 1) }, .opened) := if_pos h

theorem semCreate_of_ne {g : Objects MAX} {name : Sem} (h : g.sem name ≠ none) : semCreate g name = (g, .failed) :=
  if_neg h

/-- One step of `init_sem` and `init_shm`. A call that fails does so because the name exists, or does not. -/
def init (g : Objects MAX) (s : Stage) : Option (Objects MAX × Stage) :=
  match s.call with
  | .createMutex =>
    match semCreate g .MUTEX with
    | (g', h) => some (g', ⟨Function.update s.sems .MUTEX h, if h = .failed then .openMutex else .createWrt⟩)
  | .createWrt =>
    match semCreate g .WRT with
    | (g', h) => some (g', ⟨Function.update s.sems .WRT h, if h = .failed then .openMutex else .shmCreate⟩)
  | .openMutex =>
    some (g, ⟨Function.update s.sems .MUTEX (semOpen g .MUTEX),
      if semOpen g .MUTEX = .failed then .shmCreate else .openWrt⟩)
  | .openWrt => some (g, ⟨Function.update s.sems .WRT (semOpen g .WRT), .shmCreate⟩)
  | .shmCreate =>
    if g.shm.present then some (g, { s with call := .shmOpen })
    else some ({ g with shm := .created MAX, data := fun _ => 0 }, { s with call := .ftruncate })
  | .ftruncate => some (ftruncate g, { s with call := .mmap })
  | .mmap => some (g, { s with call := .write 0 })
  | .write i =>
    if h : i < MAX then
      some ({ g with shm := g.shm.write ⟨i, h⟩, data := Function.update g.data ⟨i, h⟩ (-1) },
        { s with call := .write (i + 1) })
    else some (g, { s with call := .loop })
  | .shmOpen => some (g, { s with call := .ftruncateExisting })
  | .ftruncateExisting => some (ftruncate g, { s with call := .mmapExisting })
  | .mmapExisting => some (g, { s with call := .loop })
  | .loop => none

/-- Neither semaphore and no shared memory object exists, and every process is at the start of its program. -/
def Fresh {ι : Type*} (s : Pool ι (Objects MAX) Stage) : Prop :=
  s.shared = ⟨fun _ => none, .absent MAX, fun _ => 0⟩ ∧ ∀ p, s.procs p = ⟨fun _ => .null, .createMutex⟩

/-- The programs up to their loops. -/
def launch (ι : Type*) (MAX : ℕ) : Program ι (Objects MAX) Stage Unit := fun _ g s _ => init g s

/-- All runs of any number of programs, started at any times. -/
def startup (ι : Type*) [DecidableEq ι] (MAX : ℕ) : System (Pool ι (Objects MAX) Stage) (ι × Unit) :=
  (launch ι MAX).system Fresh

/-! ## The two conditions -/

/-- The process has left `init_sem`. -/
def leftInitSem : Call → Bool
  | .createMutex | .createWrt | .openMutex | .openWrt => false
  | _ => true

/-- The process finds "mutex" existing and "wrt" not. -/
def BetweenSems {ι : Type*} (s : Pool ι (Objects MAX) Stage) (p : ι) : Prop :=
  (s.procs p).call = .createMutex ∧ s.shared.sem .MUTEX ≠ none ∧ s.shared.sem .WRT = none

/-- The process finds the shared memory object existing while its creator still has cells to set, or with more cells
than its own `ftruncate` is going to keep. -/
def Unset {ι : Type*} (s : Pool ι (Objects MAX) Stage) (p : ι) : Prop :=
  (s.procs p).call = .shmCreate ∧ s.shared.shm.present = true ∧ ¬ (s.shared.shm.Full ∧ MAX ≤ kept)

instance {ι : Type*} (s : Pool ι (Objects MAX) Stage) (p : ι) : Decidable (BetweenSems s p) :=
  inferInstanceAs (Decidable (_ ∧ _))

instance {ι : Type*} (s : Pool ι (Objects MAX) Stage) (p : ι) : Decidable (Unset s p) :=
  inferInstanceAs (Decidable (_ ∧ _))

/-- Whoever has left `init_sem` has both semaphores open. -/
def Opened {ι : Type*} (s : Pool ι (Objects MAX) Stage) : Prop :=
  ∀ p, leftInitSem (s.procs p).call = true → ∀ name, (s.procs p).sems name = .opened

/-- Nobody is in its loop over a table with a cell that is not set. -/
def Prepared {ι : Type*} (s : Pool ι (Objects MAX) Stage) : Prop :=
  ∀ p, (s.procs p).call = .loop → s.shared.shm.Full

/-! ## The invariant -/

/-- The next cell of a process that sets the cells. -/
def writing (s : Stage) : Option ℕ :=
  match s.call with
  | .ftruncate | .mmap => some 0
  | .write i => some i
  | _ => none

/-- The process has found the object existing, or is in its loop. -/
def uses (s : Stage) : Bool :=
  match s.call with
  | .shmOpen | .ftruncateExisting | .mmapExisting | .loop => true
  | _ => false

/-- What a process has open, what it is going to find, and that it cuts no table of more cells than it keeps. -/
def StageOK (MAX : ℕ) (sem : Sem → Option ℕ) (s : Stage) : Prop :=
  match s.call with
  | .createMutex => True
  | .createWrt => s.sems .MUTEX = .opened ∧ sem .MUTEX ≠ none
  | .openMutex => sem .MUTEX ≠ none ∧ sem .WRT ≠ none
  | .openWrt => s.sems .MUTEX = .opened ∧ sem .WRT ≠ none
  | .shmOpen | .ftruncateExisting => MAX ≤ kept ∧ ∀ name, s.sems name = .opened
  | _ => ∀ name, s.sems name = .opened

structure Up {ι : Type*} (g : Objects MAX) (procs : ι → Stage) : Prop where
  made : Segment.Made writing g.shm procs
  ready : Segment.Ready uses g.shm procs
  stages : ∀ p, StageOK MAX g.sem (procs p)

/-- A semaphore that exists stays. -/
theorem StageOK.mono {sem sem' : Sem → Option ℕ} {s : Stage} (h : StageOK MAX sem s)
    (hs : ∀ name, sem name ≠ none → sem' name ≠ none) : StageOK MAX sem' s := by
  rcases s with ⟨sems, call⟩
  cases call
  case createWrt | openWrt => exact ⟨h.1, hs _ h.2⟩
  case openMutex => exact ⟨hs _ h.1, hs _ h.2⟩
  all_goals exact h

/-- With "wrt" opened last both are open. -/
theorem opened_wrt {sems : Sem → Handle} (h : sems .MUTEX = .opened) (name : Sem) :
    Function.update sems .WRT .opened name = .opened := by
  cases name <;> simp [h]

section Steps

variable {ι : Type*} [DecidableEq ι] {g g' : Objects MAX} {procs : ι → Stage} {p : ι} {l : Stage}

/-- A step of a process in `init_sem`. -/
theorem Up.sem (hI : Up g procs) (hshm : g'.shm = g.shm) (hw : writing l = writing (procs p))
    (hu : uses l = uses (procs p)) (hs : ∀ name, g.sem name ≠ none → g'.sem name ≠ none) (hl : StageOK MAX g'.sem l) :
    Up g' (Function.update procs p l) := by
  refine ⟨?_, ?_, fun q => ?_⟩
  · rw [hshm]
    exact hI.made.keep hw
  · rw [hshm]
    exact hI.ready.step (fun _ => id) fun h => .inl (hu ▸ h)
  · by_cases hq : q = p
    · subst hq
      rwa [Function.update_self]
    · rw [Function.update_of_ne hq]
      exact (hI.stages q).mono hs

/-- A step of a process in `init_shm`: it has both semaphores open. -/
theorem Up.shm (hI : Up g procs) (hsem : g'.sem = g.sem)
    (hmade : Segment.Made writing g'.shm (Function.update procs p l))
    (hready : Segment.Ready uses g'.shm (Function.update procs p l)) (hl : StageOK MAX g.sem l) :
    Up g' (Function.update procs p l) := by
  refine ⟨hmade, hready, fun q => ?_⟩
  rw [hsem]
  by_cases hq : q = p
  · subst hq
    rwa [Function.update_self]
  · rw [Function.update_of_ne hq]
    exact hI.stages q

/-- A step of a process in `init_shm` that changes no cell. -/
theorem Up.move (hI : Up g procs) (hsem : g'.sem = g.sem) (hshm : g'.shm = g.shm) (hw : writing l = writing (procs p))
    (hu : uses l = true → uses (procs p) = true) (hl : StageOK MAX g.sem l) : Up g' (Function.update procs p l) := by
  refine hI.shm hsem ?_ ?_ hl
  · rw [hshm]
    exact hI.made.keep hw
  · rw [hshm]
    exact hI.ready.step (fun _ => id) fun h => .inl (hu h)

theorem exists_update {sem : Sem → Option ℕ} {name : Sem} {v : ℕ} (n : Sem) (h : sem n ≠ none) :
    Function.update sem name (some v) n ≠ none := by
  by_cases hn : n = name
  · subst hn
    simp
  · rwa [Function.update_of_ne hn]

/-- A step of a process that finds neither one semaphore without the other nor a table that is unfinished or that it
cuts. -/
theorem up_init (hI : Up g procs) (hsem : ¬ BetweenSems ⟨g, procs⟩ p) (hshm : ¬ Unset ⟨g, procs⟩ p)
    (h : init g (procs p) = some (g', l)) : Up g' (Function.update procs p l) := by
  have hl := hI.stages p
  rcases hs : procs p with ⟨sems, call⟩
  rw [hs] at h hl
  cases call with
  | createMutex =>
    by_cases hm : g.sem .MUTEX = none
    · simp only [init, semCreate_of_none hm, reduceCtorEq, if_false] at h
      cases h
      refine hI.sem rfl (by rw [hs]; rfl) (by rw [hs]; rfl) exists_update ⟨?_, ?_⟩ <;> simp
    · simp only [init, semCreate_of_ne hm, if_true] at h
      cases h
      -- whoever falls back to opening finds both semaphores
      have hw : g.sem .WRT ≠ none := fun hw => hsem ⟨by show (procs p).call = _; rw [hs], hm, hw⟩
      exact hI.sem rfl (by rw [hs]; rfl) (by rw [hs]; rfl) (fun _ => id) ⟨hm, hw⟩
  | createWrt =>
    by_cases hw : g.sem .WRT = none
    · simp only [init, semCreate_of_none hw, reduceCtorEq, if_false] at h
      cases h
      exact hI.sem rfl (by rw [hs]; rfl) (by rw [hs]; rfl) exists_update (opened_wrt hl.1)
    · simp only [init, semCreate_of_ne hw, if_true] at h
      cases h
      exact hI.sem rfl (by rw [hs]; rfl) (by rw [hs]; rfl) (fun _ => id) ⟨hl.2, hw⟩
  | openMutex =>
    have hopen : semOpen g .MUTEX = .opened := if_neg hl.1
    simp only [init, hopen, reduceCtorEq, if_false] at h
    cases h
    exact hI.sem rfl (by rw [hs]; rfl) (by rw [hs]; rfl) (fun _ => id) ⟨by simp, hl.2⟩
  | openWrt =>
    have hopen : semOpen g .WRT = .opened := if_neg hl.2
    simp only [init, hopen] at h
    cases h
    exact hI.sem rfl (by rw [hs]; rfl) (by rw [hs]; rfl) (fun _ => id) (opened_wrt hl.1)
  | shmCreate =>
    simp only [init] at h
    split at h
    · rename_i hpresent
      cases h
      -- whoever attaches finds every cell set, and is not going to cut any
      have hfull : g.shm.Full ∧ MAX ≤ kept := by
        by_contra hfull
        exact hshm ⟨by show (procs p).call = _; rw [hs], hpresent, hfull⟩
      exact hI.shm rfl (hI.made.keep (by rw [hs]; rfl))
        (hI.ready.step (fun _ => id) fun _ => .inr hfull.1) ⟨hfull.2, hl⟩
    · rename_i habsent
      rw [Bool.not_eq_true] at habsent
      cases h
      -- the table is new, and its creator has all cells to set
      refine hI.shm rfl (hI.made.create habsent rfl) (hI.ready.step (fun k hk => ?_) nofun) hl
      rw [(hI.made.absent habsent).1 k] at hk
      cases hk
  | ftruncate =>
    cases h
    -- its creator cuts the table before any cell is set
    have hempty : ∀ k, g.shm.set k = false := fun k => by
      have := hI.made.upTo p 0 (by rw [hs]; rfl) k
      simpa using this
    exact hI.move rfl (Segment.cut_of_empty hempty) (by rw [hs]; rfl) nofun hl
  | mmap =>
    cases h
    exact hI.move rfl rfl (by rw [hs]; rfl) nofun hl
  | write i =>
    have hwriting : writing (procs p) = some i := by rw [hs]; rfl
    simp only [init] at h
    split at h
    · rename_i hi
      cases h
      exact hI.shm rfl (hI.made.write hwriting hi rfl) (hI.ready.step Segment.set_write nofun) hl
    · rename_i hi
      cases h
      -- the creator has set all cells when its loop over them ends
      obtain ⟨hmade, hfull⟩ := hI.made.finish (l := ⟨sems, .loop⟩) hwriting hi rfl
      exact hI.shm rfl hmade (hI.ready.step (fun _ => id) fun _ => .inr hfull) hl
  | shmOpen | mmapExisting =>
    cases h
    exact hI.move rfl rfl (by rw [hs]; rfl) (fun _ => by rw [hs]; rfl) hl
  | ftruncateExisting =>
    cases h
    exact hI.move rfl (Segment.cut_of_le hl.1) (by rw [hs]; rfl) (fun _ => by rw [hs]; rfl) hl.2
  | loop => cases h

end Steps

/-- Some process finds one semaphore without the other, or a table that is unfinished or that it cuts. -/
def Between {ι : Type*} (s : Pool ι (Objects MAX) Stage) (p : ι) : Prop := BetweenSems s p ∨ Unset s p

instance {ι : Type*} (s : Pool ι (Objects MAX) Stage) (p : ι) : Decidable (Between s p) :=
  inferInstanceAs (Decidable (_ ∨ _))

section Results

variable {ι : Type*} [DecidableEq ι] {s : Pool ι (Objects MAX) Stage} {p : ι}

theorem reachable_up (h : (startup ι MAX).ReachableIf (fun s a => ¬ Between s a.1) s) : Up s.shared s.procs := by
  refine h.invariant (I := fun s => Up s.shared s.procs) ?_ ?_
  · rintro s ⟨hg, hp⟩
    rw [hg]
    refine ⟨.init fun p => ?_, fun p hu => ?_, fun p => ?_⟩
    · rw [hp p]
      rfl
    · rw [hp p] at hu
      cases hu
    · rw [hp p]
      trivial
  · rintro s ⟨p, _⟩ s' - hI hok hn
    obtain ⟨g', l', hl, rfl⟩ := (Program.next_eq_some (P := launch ι MAX)).1 hn
    exact up_init hI (fun h => hok (.inl h)) (fun h => hok (.inr h)) hl

omit [DecidableEq ι] in
theorem Up.opened (hI : Up s.shared s.procs) : Opened s := by
  intro p hp
  have hl := hI.stages p
  unfold StageOK at hl
  cases hc : (s.procs p).call <;> rw [hc] at hl hp <;> first | exact hl | exact hl.2 | cases hp

/-- A process that finds "mutex" without "wrt" can leave `init_sem` without "wrt". -/
theorem betweenSems_fails (h : BetweenSems s p) :
    ∃ s', (startup ι MAX).run s [(p, ()), (p, ()), (p, ())] = some s' ∧ ¬ Opened s' := by
  obtain ⟨hp, hm, hw⟩ := h
  refine ⟨⟨s.shared, Function.update s.procs p
    ⟨Function.update (Function.update (s.procs p).sems .MUTEX .opened) .WRT .failed, .shmCreate⟩⟩, ?_, fun hopen => ?_⟩
  · simp [System.run, startup, Program.system, Program.next, launch, init, semCreate, semOpen, hp, hm, hw]
  · have hfail := hopen p (by simp [leftInitSem]) .WRT
    simp at hfail

/-- A process that finds such a table can be in its loop over it before anybody else takes a step. -/
theorem unset_unprepared (h : Unset s p) :
    ∃ s', (startup ι MAX).run s (List.replicate 4 (p, ())) = some s' ∧ ¬ Prepared s' := by
  obtain ⟨hp, hpresent, hfull⟩ := h
  refine ⟨⟨ftruncate s.shared, Function.update s.procs p ⟨(s.procs p).sems, .loop⟩⟩, ?_, fun hprep => ?_⟩
  · simp [System.run, startup, Program.system, Program.next, launch, init, hp, hpresent, List.replicate]
  · exact hfull (Segment.full_cut.1 (hprep p (by simp)))

end Results

/-- In every run in which no process finds "mutex" existing and "wrt" not, or the table existing while its creator
still has cells to set or with more than two cells, whoever has left `init_sem` has both semaphores open, and nobody
is in its loop over a table with a cell that is not set; and a process that finds one of these gets there without that
by its own next steps. -/
theorem started_unless_between {ι : Type*} [DecidableEq ι] {MAX : ℕ} :
    (∀ s, (startup ι MAX).ReachableIf (fun s a => ¬ Between s a.1) s → Opened s ∧ Prepared s) ∧
    (∀ s p, (startup ι MAX).Reachable s → Between s p →
      ∃ as s', (startup ι MAX).run s as = some s' ∧ ¬ (Opened s' ∧ Prepared s')) := by
  refine ⟨fun s h => ?_, fun s p _ hb => ?_⟩
  · have hI := reachable_up h
    exact ⟨hI.opened, fun p hp => hI.ready p (by simp [uses, hp])⟩
  · rcases hb with h | h
    · obtain ⟨s', hs, hnot⟩ := betweenSems_fails h
      exact ⟨_, s', hs, fun h => hnot h.1⟩
    · obtain ⟨s', hs, hnot⟩ := unset_unprepared h
      exact ⟨_, s', hs, fun h => hnot h.2⟩

/-- Two processes. -/
def off (MAX : ℕ) : Pool (Fin 2) (Objects MAX) Stage :=
  ⟨⟨fun _ => none, .absent MAX, fun _ => 0⟩, fun _ => ⟨fun _ => .null, .createMutex⟩⟩

theorem off_fresh (MAX : ℕ) : Fresh (off MAX) := ⟨rfl, fun _ => rfl⟩

/-- One process creates both semaphores, the other opens them, and the first creates the table and sets all cells. -/
def inOrder : List (Fin 2 × Unit) :=
  List.flatten [List.replicate 2 (0, ()), List.replicate 3 (1, ()), List.replicate 54 (0, ())]

theorem started_unless_between_inOrder : ∃ s, (startup (Fin 2) 50).run (off 50) inOrder = some s ∧
    (s.procs 0).call = .loop ∧ (s.procs 1).call = .shmCreate ∧ (Opened s ∧ Prepared s) := by
  obtain ⟨s, hs, hrun, h0, h1⟩ : ∃ s,
    (startup (Fin 2) 50).runIf (fun s a => ¬ Between s a.1) (off 50) inOrder = some s ∧
    (startup (Fin 2) 50).run (off 50) inOrder = some s ∧ (s.procs 0).call = .loop ∧
    (s.procs 1).call = .shmCreate := ⟨_, rfl, rfl, rfl, rfl⟩
  exact ⟨s, hrun, h0, h1, started_unless_between.1 s (System.ReachableIf.runIf inOrder (.init (off_fresh 50)) hs)⟩

/-- One process creates "mutex"; before it creates "wrt" the other is through `init_sem`. -/
def overtaken : List (Fin 2 × Unit) := [(0, ()), (1, ()), (1, ()), (1, ())]

theorem overtaken_failed : ¬ ∀ s, (startup (Fin 2) 50).Reachable s → Opened s ∧ Prepared s := by
  intro h
  obtain ⟨s, hs, hp, hw⟩ : ∃ s, (startup (Fin 2) 50).run (off 50) overtaken = some s ∧
    (s.procs 1).call = .shmCreate ∧ (s.procs 1).sems .WRT = .failed := ⟨_, rfl, rfl, rfl⟩
  have hopen := (h s (System.Reachable.run overtaken (.init (off_fresh 50)) hs)).1 1 (by rw [hp]; rfl) .WRT
  rw [hw] at hopen
  cases hopen

end Sysopy.ReadersWriters
