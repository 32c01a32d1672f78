/-
The producers and consumers of cw07/zad1 when a blocked `semop` may be interrupted. It then returns -1 and
changes nothing, and `change_sem` prints "semop error" and returns as it always does, so `sem_down` has no way
to tell its caller: the process goes on without the unit. A run in which this never happens is a run of
`Sysopy.ProdCons.Model`.
-/
import Sysopy.ProdCons.Progress

namespace Sysopy.ProdCons

open Sysopy.Conc

/-- A process, with the semaphores behind whose `sem_down` it has stood without a unit. The list is a history the
process never reads. -/
structure Interruptible where
  proc : Proc
  without : List Sem

variable {ι : Type*} {MAX : ℕ}

/-- The semaphore whose unit a step leaves behind: the process was in its `sem_down` and stands behind the call, and
the semaphore is as it was. -/
def leftBehind (g g' : Shared MAX) (l l' : Proc) : Option Sem :=
  (downOf l).filter fun sem => decide (l' = afterDown l ∧ g'.sem sem = g.sem sem)

/-- The processes when a `semop` that blocks may be interrupted; the label says what `rand()` returns and whether
it is. -/
def interruptible (ι : Type*) (MAX : ℕ) : Program ι (Shared MAX) Interruptible (ℕ × Bool) := fun _ g l a =>
  (step a.2 a.1 g l.proc).map fun r => (r.1, ⟨r.2, (leftBehind g r.1 l.proc r.2).toList ++ l.without⟩)

/-- All runs of any number of producers and consumers, with interruptions at any time. -/
def interruptions (ι : Type*) [DecidableEq ι] (MAX : ℕ) : System (Pool ι (Shared MAX) Interruptible) (ι × ℕ × Bool) :=
  (interruptible ι MAX).system fun s =>
    Started ⟨s.shared, Interruptible.proc ∘ s.procs⟩ ∧ ∀ p, (s.procs p).without = []

/-- The step is not one in which a `semop` of a `sem_down` fails. -/
def Uninterrupted (s : Pool ι (Shared MAX) Interruptible) (a : ι × ℕ × Bool) : Prop :=
  a.2.2 = true → ¬ Blocked s.shared (s.procs a.1).proc

/-- What the semaphores are for: nobody goes on without its unit, the scans stop inside the table, a producer
stores into an empty cell, and at most one process is between `sem_down(MUTEX)` and `sem_up(MUTEX)`. -/
structure Safe (s : Pool ι (Shared MAX) Interruptible) : Prop where
  served : ∀ p, (s.procs p).without = []
  producerScan : ∀ p v i, (s.procs p).proc = .producer (.scan v i) → ScanStops (fun k => s.shared.data k = -1) i
  consumerScan : ∀ p i, (s.procs p).proc = .consumer (.scan i) → ScanStops (fun k => s.shared.data k ≠ -1) i
  inside : ∀ p i, (s.procs p).proc ≠ .producer (.outside i) ∧ (s.procs p).proc ≠ .consumer (.outside i)
  store : ∀ p v i, (s.procs p).proc = .producer (.store v i) → ∃ hi : i < MAX, s.shared.data ⟨i, hi⟩ = -1
  alone : ∀ p q, inMutex (s.procs p).proc = 1 → inMutex (s.procs q).proc = 1 → p = q

/-! ## What a step does -/

section Step

variable {g g' : Shared MAX} {l l' : Proc} {i : Bool} {rand : ℕ}

/-- The semaphore of the `sem_down` a process is in, when its `semop` blocks. -/
def blockedOn (g : Shared MAX) (l : Proc) : Option Sem := (downOf l).filter fun sem => (semDown false g sem).isNone

theorem blockedOn_eq_none_iff : blockedOn g l = none ↔ ¬ Blocked g l := by
  unfold blockedOn Blocked
  rw [Option.filter_eq_none_iff]
  simp only [Option.isNone_iff_eq_none]
  constructor
  · rintro h ⟨sem, hs, hd⟩
    exact h sem hs hd
  · exact fun h sem hs hd => h ⟨sem, hs, hd⟩

/-- A `sem_down` that does not block does the same whether or not it may be interrupted. -/
theorem semDown_of_ne {sem : Sem} (h : semDown false g sem ≠ none) : semDown i g sem = semDown false g sem := by
  unfold semDown changeSem at h ⊢
  split
  · rfl
  · rename_i hneg
    rw [if_neg hneg] at h
    exact absurd rfl h

/-- Interruptions change nothing for a process that is not blocked. -/
theorem step_of_not_blocked (h : ¬ Blocked g l) : step i rand g l = step false rand g l := by
  cases hs : downOf l with
  | some sem => rw [step_of_downOf hs, step_of_downOf hs, semDown_of_ne fun hd => h ⟨sem, hs, hd⟩]
  | none =>
    have hup : ∀ sem, semUp i g sem = semUp false g sem := fun sem => by
      rw [semUp_eq_some.2 rfl, semUp_eq_some.2 rfl]
    cases l with
    | producer pc => cases pc <;> first | (simp only [step, producer, hup]; done) | cases hs
    | consumer pc => cases pc <;> first | (simp only [step, consumer, hup]; done) | cases hs

/-- An interrupted `sem_down` changes nothing and returns. -/
theorem step_of_blocked (h : Blocked g l) : step true rand g l = some (g, afterDown l) := by
  obtain ⟨sem, hs, h0⟩ := blocked_iff.1 h
  have hdown : semDown true g sem = some g := by
    unfold semDown changeSem
    rw [if_neg (by omega), if_pos rfl]
  rw [step_of_downOf hs, hdown, Option.map_some]

/-- Otherwise it waits. -/
theorem step_eq_none_of_blocked (h : Blocked g l) : step false rand g l = none := by
  obtain ⟨sem, hs, hd⟩ := h
  rw [step_of_downOf hs, hd, Option.map_none]

/-- A process that stands behind a `sem_down` without its unit was blocked in it. -/
theorem leftBehind_eq (h : step i rand g l = some (g', l')) : leftBehind g g' l l' = blockedOn g l := by
  by_cases hblocked : Blocked g l
  · obtain ⟨sem, hs, hd⟩ := hblocked
    have hi : i = true := by
      by_contra hi
      rw [Bool.eq_false_iff.2 hi, step_eq_none_of_blocked ⟨sem, hs, hd⟩] at h
      cases h
    subst hi
    rw [step_of_blocked ⟨sem, hs, hd⟩] at h
    cases h
    simp [leftBehind, blockedOn, hs, Option.filter_some, hd]
  · rw [blockedOn_eq_none_iff.2 hblocked]
    rw [step_of_not_blocked hblocked] at h
    unfold leftBehind
    cases hs : downOf l with
    | none => rfl
    | some sem =>
      rw [step_of_downOf hs, Option.map_eq_some_iff] at h
      obtain ⟨g₁, hd, he⟩ := h
      cases he
      -- the semaphore has been lowered
      obtain ⟨hpos, rfl⟩ := semDown_eq_some.1 hd
      have hlower : g.sem sem - 1 ≠ g.sem sem := by omega
      simp [hlower]

end Step

/-! ## Runs without an interrupted `sem_down` -/

variable [DecidableEq ι] {s s' : Pool ι (Shared MAX) Interruptible}

/-- A step of a process. -/
theorem interruptions_next {a : ι × ℕ × Bool} (hs : (interruptions ι MAX).next s a = some s') : ∃ g l,
    step a.2.2 a.2.1 s.shared (s.procs a.1).proc = some (g, l) ∧ s' = ⟨g, Function.update s.procs a.1
      ⟨l, (blockedOn s.shared (s.procs a.1).proc).toList ++ (s.procs a.1).without⟩⟩ := by
  obtain ⟨p, rand, i⟩ := a
  obtain ⟨g, l, hP, rfl⟩ := Program.next_eq_some.1 hs
  obtain ⟨⟨g₁, l₁⟩, hstep, hl⟩ := Option.map_eq_some_iff.1 hP
  cases hl
  exact ⟨g₁, l₁, hstep, by rw [leftBehind_eq hstep]⟩

omit [DecidableEq ι] in
/-- A blocked process takes a step only when its `semop` fails. -/
theorem Uninterrupted.not_blocked {a : ι × ℕ × Bool} {r : Shared MAX × Proc} (h : Uninterrupted s a)
    (hs : step a.2.2 a.2.1 s.shared (s.procs a.1).proc = some r) : ¬ Blocked s.shared (s.procs a.1).proc := by
  intro hblocked
  cases hi : a.2.2 with
  | true => exact h hi hblocked
  | false =>
    rw [hi, step_eq_none_of_blocked hblocked] at hs
    cases hs

/-- Nobody goes on without its unit just if no `sem_down` has failed. -/
theorem served_iff (h : (interruptions ι MAX).Reachable s) :
    (∀ p, (s.procs p).without = []) ↔ (interruptions ι MAX).ReachableIf Uninterrupted s := by
  constructor
  · induction h with
    | init h => exact fun _ => .init h
    | @next s s' a h hs ih =>
      intro hserved
      obtain ⟨g, l, -, rfl⟩ := interruptions_next hs
      -- the list of the process has not grown, so it was not blocked
      have hp := hserved a.1
      simp only [Function.update_self, List.append_eq_nil_iff, Option.toList_eq_nil_iff] at hp
      refine .next (ih fun q => ?_) (fun _ => blockedOn_eq_none_iff.1 hp.1) hs
      by_cases hq : q = a.1
      · rw [hq]
        exact hp.2
      · have hkeep := hserved q
        dsimp only at hkeep
        rwa [Function.update_of_ne hq] at hkeep
  · intro hif
    refine hif.invariant (I := fun s => ∀ p, (s.procs p).without = []) ?_ ?_
    · rintro s ⟨-, hserved⟩
      exact hserved
    intro s a s' _ hserved hok hs q
    obtain ⟨g, l, hstep, rfl⟩ := interruptions_next hs
    by_cases hq : q = a.1
    · rw [hq]
      dsimp only
      rw [Function.update_self, hserved a.1, blockedOn_eq_none_iff.2 (hok.not_blocked hstep)]
      rfl
    · dsimp only
      rw [Function.update_of_ne hq]
      exact hserved q

/-- As long as no `sem_down` has failed, the processes are in a state of their runs without interruptions. -/
theorem reachable_of_uninterrupted (h : (interruptions ι MAX).ReachableIf Uninterrupted s) :
    (system ι MAX).Reachable ⟨s.shared, Interruptible.proc ∘ s.procs⟩ := by
  refine h.invariant (I := fun s => (system ι MAX).Reachable ⟨s.shared, Interruptible.proc ∘ s.procs⟩) ?_ ?_
  · rintro s ⟨hstarted, -⟩
    exact .init hstarted
  · intro s a s' _ ih hok hs
    obtain ⟨g, l, hstep, rfl⟩ := interruptions_next hs
    rw [step_of_not_blocked (hok.not_blocked hstep)] at hstep
    exact Program.view_step (v := Interruptible.proc) (a := a.2.1) ih hstep

variable [Fintype ι]

/-- Nobody goes on without its unit, no scan leaves the table, no filled cell is overwritten and at most one process
is between `sem_down(MUTEX)` and `sem_up(MUTEX)`: in every state of every run that is so iff the run is one in which
no `semop` of a `sem_down` has failed. -/
theorem safe_iff_uninterrupted (h : (interruptions ι MAX).Reachable s) :
    Safe s ↔ (interruptions ι MAX).ReachableIf Uninterrupted s := by
  constructor
  · exact fun hs => (served_iff h).1 hs.served
  · intro hs
    have hI := reachable_inv (reachable_of_uninterrupted hs)
    have hloc : ∀ p, LocalOK s.shared.data (s.procs p).proc := hI.locals
    refine ⟨(served_iff h).2 hs, fun p v i hp => hI.producerScan hp, fun p i hp => hI.consumerScan hp,
      fun p i => ⟨fun hp => ?_, fun hp => ?_⟩, fun p v i hp => ?_, fun p q hp hq => ?_⟩
    · have hl := hloc p
      rwa [hp] at hl
    · have hl := hloc p
      rwa [hp] at hl
    · have hl := hp ▸ hloc p
      exact hl.2
    · have hmutex : s.shared.sem .MUTEX + tally inMutex (Interruptible.proc ∘ s.procs) = 1 := hI.mutex
      exact eq_of_tally_le_one (w := inMutex) (f := Interruptible.proc ∘ s.procs) (by omega)
        (Nat.lt_of_lt_of_eq Nat.one_pos hp.symm) (Nat.lt_of_lt_of_eq Nat.one_pos hq.symm)

/-- Two producers over the table of 50 cells. -/
def twoProducers : Pool (Fin 2) (Shared 50) Interruptible := ⟨initShared 50, fun _ => ⟨.producer .top, []⟩⟩

theorem twoProducers_reachable : (interruptions (Fin 2) 50).Reachable twoProducers :=
  .init ⟨⟨rfl, fun _ => .inl rfl⟩, fun _ => rfl⟩

/-- The first producer has stopped at a cell while the second one waits for the mutex. -/
theorem safe_iff_uninterrupted_waiting : ∃ s, (interruptions (Fin 2) 50).run twoProducers
    [(0, 7, false), (0, 0, false), (0, 0, false), (0, 0, false), (1, 9, false), (1, 0, false)] = some s ∧
    (s.procs 0).proc = .producer (.store 7 0) ∧ (s.procs 1).proc = .producer (.downMutex 9) ∧ Safe s := by
  obtain ⟨s, hrun, hfirst, hsecond, hserved⟩ : ∃ s, (interruptions (Fin 2) 50).run twoProducers
      [(0, 7, false), (0, 0, false), (0, 0, false), (0, 0, false), (1, 9, false), (1, 0, false)] = some s ∧
      (s.procs 0).proc = .producer (.store 7 0) ∧ (s.procs 1).proc = .producer (.downMutex 9) ∧
      ∀ p, (s.procs p).without = [] := ⟨_, rfl, rfl, rfl, fun p => by fin_cases p <;> rfl⟩
  have hreach := System.Reachable.run _ twoProducers_reachable hrun
  exact ⟨s, hrun, hfirst, hsecond, (safe_iff_uninterrupted hreach).2 ((served_iff hreach).1 hserved)⟩

/-! ## What an interruption does -/

omit [Fintype ι] in
/-- An interrupted process goes on. -/
theorem interrupted_goes_on {p : ι} (hp : Blocked s.shared (s.procs p).proc) (rand : ℕ) : ∃ sem,
    (interruptions ι MAX).next s (p, rand, true) = some ⟨s.shared,
      Function.update s.procs p ⟨afterDown (s.procs p).proc, sem :: (s.procs p).without⟩⟩ := by
  obtain ⟨sem, hs, hd⟩ := hp
  have hon : blockedOn s.shared (s.procs p).proc = some sem := by
    unfold blockedOn
    rw [hs, Option.filter_some, if_pos (by rw [hd]; rfl)]
  refine ⟨sem, Program.next_eq_some.2 ⟨s.shared, _, ?_, rfl⟩⟩
  unfold interruptible
  have hstep : step true rand s.shared (s.procs p).proc = some (s.shared, afterDown (s.procs p).proc) :=
    step_of_blocked ⟨sem, hs, hd⟩
  rw [hstep, Option.map_some, leftBehind_eq hstep, hon]
  rfl

/-- The first interruption, when it is of a `sem_down(MUTEX)`, lets a second process into the critical section. -/
theorem interrupted_mutex {p : ι} (h : (interruptions ι MAX).ReachableIf Uninterrupted s)
    (hp : Blocked s.shared (s.procs p).proc) (hmutex : downOf (s.procs p).proc = some .MUTEX) :
    ∃ q, q ≠ p ∧ inMutex (s.procs q).proc = 1 ∧ inMutex (afterDown (s.procs p).proc) = 1 := by
  have hI := reachable_inv (reachable_of_uninterrupted h)
  obtain ⟨sem, hsem, h0⟩ := blocked_iff.1 hp
  have hinside : s.shared.sem .MUTEX + tally inMutex (Interruptible.proc ∘ s.procs) = 1 := hI.mutex
  cases hmutex.symm.trans hsem
  obtain ⟨q, hq⟩ := exists_of_tally_pos (w := inMutex) (f := Interruptible.proc ∘ s.procs) (by omega)
  have hle := le_tally inMutex (Interruptible.proc ∘ s.procs) q
  have hafter : inMutex (s.procs p).proc = 0 ∧ inMutex (afterDown (s.procs p).proc) = 1 := by
    cases hl : (s.procs p).proc with
    | producer pc =>
      rw [hl] at hmutex
      cases pc <;> first | exact ⟨rfl, rfl⟩ | cases hmutex
    | consumer pc =>
      rw [hl] at hmutex
      cases pc <;> first | exact ⟨rfl, rfl⟩ | cases hmutex
  refine ⟨q, ?_, ?_, hafter.2⟩
  · rintro rfl
    exact absurd hafter.1 (Nat.pos_iff_ne_zero.1 hq)
  · have hone : inMutex (s.procs q).proc ≤ 1 := hle.trans (by omega)
    exact Nat.le_antisymm hone hq

omit [Fintype ι] in
/-- A consumer scans a table with no filled cell, while the others stand still. -/
theorem empty_scan_leaves {p : ι} : ∀ (n : ℕ) {s : Pool ι (Shared MAX) Interruptible} {i : ℕ},
    (interruptions ι MAX).Reachable s → MAX - i = n → (s.procs p).proc = .consumer (.scan i) →
    (∀ k, s.shared.data k = -1) →
    ∃ s', (interruptions ι MAX).Reachable s' ∧ ∃ j, (s'.procs p).proc = .consumer (.outside j)
  | 0, s, i, h, hn, hp, hdata => by
    have hnext : interruptible ι MAX p s.shared (s.procs p) (0, false) =
        some (s.shared, ⟨.consumer (.outside i), (s.procs p).without⟩) := by
      simp only [interruptible, hp, step, consumer, dif_neg (show ¬ i < MAX by omega), Option.map_some]
      rfl
    exact ⟨_, Program.reachable_step h hnext, i, by dsimp only; rw [Function.update_self]⟩
  | n + 1, s, i, h, hn, hp, hdata => by
    have hi : i < MAX := by omega
    have hnext : interruptible ι MAX p s.shared (s.procs p) (0, false) =
        some (s.shared, ⟨.consumer (.scan (i + 1)), (s.procs p).without⟩) := by
      simp only [interruptible, hp, step, consumer, dif_pos hi, if_pos (hdata ⟨i, hi⟩), Option.map_some]
      rfl
    exact empty_scan_leaves n (Program.reachable_step h hnext) (show MAX - (i + 1) = n by omega)
      (by dsimp only; rw [Function.update_self]) hdata

omit [Fintype ι] in
/-- A consumer that is interrupted in `sem_down(FILL)` while the table is empty can leave the table. -/
theorem interrupted_fill_leaves {p : ι} (h : (interruptions ι MAX).Reachable s)
    (hp : (s.procs p).proc = .consumer .downFill) (hfill : s.shared.sem .FILL = 0) (hmutex : 0 < s.shared.sem .MUTEX)
    (hdata : ∀ k, s.shared.data k = -1) :
    ∃ s', (interruptions ι MAX).Reachable s' ∧ ∃ j, (s'.procs p).proc = .consumer (.outside j) := by
  have hblocked : Blocked s.shared (s.procs p).proc := by
    rw [hp]
    exact blocked_iff.2 ⟨.FILL, rfl, hfill⟩
  obtain ⟨sem, hgo⟩ := interrupted_goes_on hblocked 0
  have h₁ := h.next hgo
  rw [hp] at h₁
  -- it gets the mutex, and scans
  have hdown := Program.reachable_again (a := (0, false)) h₁
    (by simp only [interruptible, afterDown, step, consumer, semDown_eq_some.2 ⟨hmutex, rfl⟩, Option.map_some]; rfl)
  exact empty_scan_leaves _ hdown rfl (by dsimp only; rw [Function.update_self]) hdata

/-- The second producer is interrupted while it waits for the mutex; the first one stores its number. -/
def mutexInterrupted : List (Fin 2 × ℕ × Bool) :=
  [(0, 7, false), (0, 0, false), (0, 0, false), (0, 0, false), (1, 9, false), (1, 0, false), (1, 0, true),
    (1, 0, false), (0, 0, false)]

/-- Then both are between `sem_down(MUTEX)` and `sem_up(MUTEX)`, and the second one is about to overwrite the 7. -/
theorem interrupted_not_safe : ∃ s, (interruptions (Fin 2) 50).Reachable s ∧ ¬ Safe s ∧
    inMutex (s.procs 0).proc = 1 ∧ inMutex (s.procs 1).proc = 1 ∧
    (s.procs 1).proc = .producer (.store 9 0) ∧ s.shared.data 0 = 7 := by
  obtain ⟨s, hrun, h0, h1, hpc, hdata⟩ : ∃ s, (interruptions (Fin 2) 50).run twoProducers mutexInterrupted = some s ∧
    inMutex (s.procs 0).proc = 1 ∧ inMutex (s.procs 1).proc = 1 ∧
    (s.procs 1).proc = .producer (.store 9 0) ∧ s.shared.data 0 = 7 := ⟨_, rfl, rfl, rfl, rfl, rfl⟩
  refine ⟨s, System.Reachable.run _ twoProducers_reachable hrun, fun hs => ?_, h0, h1, hpc, hdata⟩
  exact absurd (hs.alone 0 1 h0 h1) (by decide)

end Sysopy.ProdCons
