/-
The plane threads of cw09/zad2: three mutexes, the counters `planes_on_board`, `waiting_to_land` and
`waiting_to_takeoff`, and the condition variables `took_off` and `landed`. A step is one operation on a
mutex or a condition variable, one update of a counter, or one test of a loop condition. The constants
`N` and `K` and the set of planes are parameters.
-/
import Sysopy.Conc.Mutex

namespace Sysopy.Airport

open Sysopy.Conc

/-- The mutexes. -/
inductive Mtx
  | landingstrip
  | waitingToTakeoffMutex
  | waitingToLandMutex
  deriving DecidableEq, Repr

/-- The shared variables. A condition variable is the set of the threads that wait on it and have not
been signalled. -/
structure Shared (ι : Type*) where
  mutex : Mtx → Option ι
  planesOnBoard : ℤ
  waitingToTakeoff : ℤ
  waitingToLand : ℤ
  tookOff : Finset ι
  landed : Finset ι

/-- The next operation of `plane()`; the landing half of the loop, then the take-off half. -/
inductive Pc
  | lockWaitLand
  | incWaitLand
  | unlockWaitLand
  | lockStripLand
  | lockTestLand
  | testLand
  | unlockTestLand
  | waitLand
  /-- Inside `pthread_cond_wait(&took_off, &landingstrip)`. -/
  | insideWaitLand
  | unlockLand
  | lockDecLand
  | decWaitLand
  | unlockDecLand
  | incBoard
  | signalLanded
  | unlockStripLand
  | lockWaitTakeoff
  | incWaitTakeoff
  | unlockWaitTakeoff
  | lockStripTakeoff
  | lockTestTakeoff
  | testTakeoff
  | unlockTestTakeoff
  | waitTakeoff
  /-- Inside `pthread_cond_wait(&landed, &landingstrip)`. -/
  | insideWaitTakeoff
  | unlockTakeoff
  | lockDecTakeoff
  | decWaitTakeoff
  | unlockDecTakeoff
  | decBoard
  | signalTookOff
  | unlockStripTakeoff
  deriving DecidableEq, Repr

variable {ι : Type*} [DecidableEq ι]

/-- `pthread_mutex_lock`: it blocks while the mutex is held. -/
def lock (g : Shared ι) (m : Mtx) (id : ι) : Option (Shared ι) :=
  if g.mutex m = none then some { g with mutex := Function.update g.mutex m (some id) } else none

/-- `pthread_mutex_unlock` -/
def unlock (g : Shared ι) (m : Mtx) : Shared ι := { g with mutex := Function.update g.mutex m none }

/-- `pthread_cond_signal` on the waiters of a condition variable: it takes out one arbitrary waiter,
`woken`, if there is one. -/
def signal (waiters : Finset ι) (woken : ι) : Option (Finset ι) :=
  if waiters = ∅ then some waiters else if woken ∈ waiters then some (waiters.erase woken) else none

/-- `planes_on_board==N || (planes_on_board >= K && waiting_to_takeoff > 0)` -/
def mustWaitToLand (N K : ℕ) (g : Shared ι) : Prop :=
  g.planesOnBoard = N ∨ (g.planesOnBoard ≥ K ∧ g.waitingToTakeoff > 0)

/-- `planes_on_board<K && waiting_to_land>0` -/
def mustWaitToTakeoff (K : ℕ) (g : Shared ι) : Prop := g.planesOnBoard < K ∧ g.waitingToLand > 0

instance (N K : ℕ) (g : Shared ι) : Decidable (mustWaitToLand N K g) := inferInstanceAs (Decidable (_ ∨ _))

instance (K : ℕ) (g : Shared ι) : Decidable (mustWaitToTakeoff K g) := inferInstanceAs (Decidable (_ ∧ _))

/-- `plane()`; `woken` is the waiter that a signal wakes. -/
def plane (N K : ℕ) : Program ι (Shared ι) Pc ι := fun id g pc woken =>
  match pc with
  -- announce the landing
  | .lockWaitLand => (lock g .waitingToLandMutex id).map (·, .incWaitLand)
  | .incWaitLand => some ({ g with waitingToLand := g.waitingToLand + 1 }, .unlockWaitLand)
  | .unlockWaitLand => some (unlock g .waitingToLandMutex, .lockStripLand)
  -- take the strip; the `while` tests its condition under `waiting_to_takeoff_mutex`
  | .lockStripLand => (lock g .landingstrip id).map (·, .lockTestLand)
  | .lockTestLand => (lock g .waitingToTakeoffMutex id).map (·, .testLand)
  | .testLand => some (g, if mustWaitToLand N K g then .unlockTestLand else .unlockLand)
  | .unlockTestLand => some (unlock g .waitingToTakeoffMutex, .waitLand)
  | .waitLand => some ({ unlock g .landingstrip with tookOff := insert id g.tookOff }, .insideWaitLand)
  -- a signalled waiter takes the mutex again before `pthread_cond_wait` returns
  | .insideWaitLand => if id ∈ g.tookOff then none else (lock g .landingstrip id).map (·, .lockTestLand)
  | .unlockLand => some (unlock g .waitingToTakeoffMutex, .lockDecLand)
  -- land, with the strip still taken
  | .lockDecLand => (lock g .waitingToLandMutex id).map (·, .decWaitLand)
  | .decWaitLand => some ({ g with waitingToLand := g.waitingToLand - 1 }, .unlockDecLand)
  | .unlockDecLand => some (unlock g .waitingToLandMutex, .incBoard)
  | .incBoard => some ({ g with planesOnBoard := g.planesOnBoard + 1 }, .signalLanded)
  | .signalLanded => (signal g.landed woken).map fun landed => ({ g with landed := landed }, .unlockStripLand)
  | .unlockStripLand => some (unlock g .landingstrip, .lockWaitTakeoff)
  -- the same for the take-off, with the roles of the two waiting counters exchanged
  | .lockWaitTakeoff => (lock g .waitingToTakeoffMutex id).map (·, .incWaitTakeoff)
  | .incWaitTakeoff => some ({ g with waitingToTakeoff := g.waitingToTakeoff + 1 }, .unlockWaitTakeoff)
  | .unlockWaitTakeoff => some (unlock g .waitingToTakeoffMutex, .lockStripTakeoff)
  | .lockStripTakeoff => (lock g .landingstrip id).map (·, .lockTestTakeoff)
  | .lockTestTakeoff => (lock g .waitingToLandMutex id).map (·, .testTakeoff)
  | .testTakeoff => some (g, if mustWaitToTakeoff K g then .unlockTestTakeoff else .unlockTakeoff)
  | .unlockTestTakeoff => some (unlock g .waitingToLandMutex, .waitTakeoff)
  | .waitTakeoff => some ({ unlock g .landingstrip with landed := insert id g.landed }, .insideWaitTakeoff)
  | .insideWaitTakeoff => if id ∈ g.landed then none else (lock g .landingstrip id).map (·, .lockTestTakeoff)
  | .unlockTakeoff => some (unlock g .waitingToLandMutex, .lockDecTakeoff)
  | .lockDecTakeoff => (lock g .waitingToTakeoffMutex id).map (·, .decWaitTakeoff)
  | .decWaitTakeoff => some ({ g with waitingToTakeoff := g.waitingToTakeoff - 1 }, .unlockDecTakeoff)
  | .unlockDecTakeoff => some (unlock g .waitingToTakeoffMutex, .decBoard)
  | .decBoard => some ({ g with planesOnBoard := g.planesOnBoard - 1 }, .signalTookOff)
  | .signalTookOff => (signal g.tookOff woken).map fun tookOff => ({ g with tookOff := tookOff }, .unlockStripTakeoff)
  | .unlockStripTakeoff => some (unlock g .landingstrip, .lockWaitLand)

/-- The shared variables as `main` leaves them, and every plane at the top of its loop. -/
def Started (s : Pool ι (Shared ι) Pc) : Prop :=
  s.shared = ⟨fun _ => none, 0, 0, 0, ∅, ∅⟩ ∧ ∀ p, s.procs p = .lockWaitLand

/-- All interleavings of the planes. -/
def airport (ι : Type*) [DecidableEq ι] (N K : ℕ) : System (Pool ι (Shared ι) Pc) (ι × ι) :=
  (plane N K).system Started

/-! ## Blocked planes -/

/-- The mutex a plane asks for next. -/
def wants : Pc → Option Mtx
  | .lockStripLand | .lockStripTakeoff | .insideWaitLand | .insideWaitTakeoff => some .landingstrip
  | .lockTestLand | .lockWaitTakeoff | .lockDecTakeoff => some .waitingToTakeoffMutex
  | .lockWaitLand | .lockDecLand | .lockTestTakeoff => some .waitingToLandMutex
  | _ => none

/-- The plane waits for a held mutex, or on a condition variable without having been signalled. -/
def Blocked (s : Pool ι (Shared ι) Pc) (p : ι) : Prop :=
  (∃ m, wants (s.procs p) = some m ∧ s.shared.mutex m ≠ none) ∨
    (s.procs p = .insideWaitLand ∧ p ∈ s.shared.tookOff) ∨
    (s.procs p = .insideWaitTakeoff ∧ p ∈ s.shared.landed)

/-- Every plane is blocked. -/
def Deadlock (s : Pool ι (Shared ι) Pc) : Prop := ∀ p, Blocked s p

/-! ## What the operations do -/

omit [DecidableEq ι] in
theorem lock_eq_some {g g' : Shared ι} {m : Mtx} {id : ι} :
    lock g m id = some g' ↔ g.mutex m = none ∧ g' = { g with mutex := Function.update g.mutex m (some id) } := by
  unfold lock
  split
  · rename_i h; simp only [h, Option.some.injEq, true_and]; exact eq_comm
  · rename_i h; simp [h]

omit [DecidableEq ι] in
theorem lock_eq_none {g : Shared ι} {m : Mtx} {id : ι} : lock g m id = none ↔ g.mutex m ≠ none := by
  unfold lock; split <;> simp_all

theorem signal_eq_some {waiters waiters' : Finset ι} {woken : ι} :
    signal waiters woken = some waiters' ↔
      (waiters = ∅ ∧ waiters' = ∅) ∨ (woken ∈ waiters ∧ waiters' = waiters.erase woken) := by
  unfold signal
  split
  · rename_i h; subst h
    simp [eq_comm]
  · rename_i h
    split
    · rename_i hw; simp [h, hw, eq_comm]
    · rename_i hw; simp [h, hw]

/-- A signal never blocks: it wakes nobody, or some waiter. -/
theorem exists_signal (waiters : Finset ι) (p : ι) : ∃ w, signal waiters w ≠ none := by
  rcases waiters.eq_empty_or_nonempty with rfl | ⟨w, hw⟩
  · exact ⟨p, by simp [signal]⟩
  · exact ⟨w, by rw [(signal_eq_some).2 (.inr ⟨hw, rfl⟩)]; simp⟩

/-- A plane is blocked exactly when it cannot take a step. -/
theorem blocked_iff {N K : ℕ} {s : Pool ι (Shared ι) Pc} {p : ι} :
    Blocked s p ↔ ∀ w, plane N K p s.shared (s.procs p) w = none := by
  have : Nonempty ι := ⟨p⟩
  obtain ⟨wl, hl⟩ := exists_signal s.shared.landed p
  obtain ⟨wt, ht⟩ := exists_signal s.shared.tookOff p
  unfold Blocked
  cases hpc : s.procs p
  case signalLanded =>
    simp only [plane, wants, reduceCtorEq, false_and, exists_false, or_false, Option.map_eq_none_iff, false_iff]
    exact fun h => hl (h wl)
  case signalTookOff =>
    simp only [plane, wants, reduceCtorEq, false_and, exists_false, or_false, Option.map_eq_none_iff, false_iff]
    exact fun h => ht (h wt)
  case insideWaitLand | insideWaitTakeoff =>
    simp only [plane, wants, Option.some.injEq, exists_eq_left', true_and, false_and, false_or, or_false, reduceCtorEq]
    split
    · rename_i hm; simp [hm]
    · rename_i hm; simp [hm, lock_eq_none, Option.map_eq_none_iff]
  all_goals simp [plane, wants, lock_eq_none]

end Sysopy.Airport
