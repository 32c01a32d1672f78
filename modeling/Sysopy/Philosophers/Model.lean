/-
The dining philosophers of cw09/zad1: the shared `philo_state`, one condition variable a philosopher,
and the calls of `use` and `put_back` by `philo`. A step is one lock, one statement under the mutex, or
one wake-up; the table size `N` is a parameter.
-/
import Sysopy.Conc.Mutex

namespace Sysopy.Philosophers

open Sysopy.Conc

/-- The values of `philo_state`. -/
inductive PhiloState
  | THINK
  | WAIT
  | EAT
  deriving DecidableEq, Repr

variable {N : ℕ}

/-- `(i+N-1)%N` -/
def left (i : Fin N) : Fin N := ⟨(i.val + N - 1) % N, Nat.mod_lt _ i.pos⟩

/-- `(i+1)%N` -/
def right (i : Fin N) : Fin N := ⟨(i.val + 1) % N, Nat.mod_lt _ i.pos⟩

/-- The shared variables. Only the thread of philosopher `i` waits on `condition[i]`, so the condition
variable is recorded as: `signalled i`, that it was signalled since that thread last began to wait. -/
structure Shared (N : ℕ) where
  philoState : Fin N → PhiloState
  mutex : Option (Fin N)
  signalled : Fin N → Bool

/-- Where the thread of a philosopher is. -/
inductive Pc
  /-- Outside `use` and `put_back`, or waiting for the mutex in `use`. -/
  | thinking
  | useSet
  | useChange
  | useTest
  | useWait
  /-- Inside `pthread_cond_wait`. -/
  | blocked
  | usePop
  /-- Returned from `use`, or waiting for the mutex in `put_back`. -/
  | eating
  | putSet
  | putLeft
  | putRight
  | putPop
  deriving DecidableEq, Repr

/-- `change_philo_state` -/
def changePhiloState (g : Shared N) (i : Fin N) : Shared N :=
  if g.philoState i = .WAIT ∧ g.philoState (left i) ≠ .EAT ∧ g.philoState (right i) ≠ .EAT then
    { g with philoState := Function.update g.philoState i .EAT, signalled := Function.update g.signalled i true }
  else g

/-- `pthread_mutex_lock(&mutex)` -/
def lock (g : Shared N) (i : Fin N) : Option (Shared N) :=
  if g.mutex = none then some { g with mutex := some i } else none

/-- `pthread_mutex_unlock(&mutex)` -/
def unlock (g : Shared N) : Shared N := { g with mutex := none }

/-- One step of `use(i)`, from the call to the return. -/
def use (i : Fin N) (spurious : Bool) (g : Shared N) : Pc → Option (Shared N × Pc)
  | .thinking => (lock g i).map (·, .useSet)
  | .useSet => some ({ g with philoState := Function.update g.philoState i .WAIT }, .useChange)
  | .useChange => some (changePhiloState g i, .useTest)
  | .useTest => some (g, if g.philoState i = .WAIT then .useWait else .usePop)
  | .useWait => some ({ unlock g with signalled := Function.update g.signalled i false }, .blocked)
  -- the wait ends after a signal, or without one, once the mutex is free
  | .blocked => if g.signalled i ∨ spurious then (lock g i).map (·, .useTest) else none
  | .usePop => some (unlock g, .eating)
  | _ => none

/-- One step of `put_back(i)`, from the call to the return. -/
def putBack (i : Fin N) (g : Shared N) : Pc → Option (Shared N × Pc)
  | .eating => (lock g i).map (·, .putSet)
  | .putSet => some ({ g with philoState := Function.update g.philoState i .THINK }, .putLeft)
  | .putLeft => some (changePhiloState g (left i), .putRight)
  | .putRight => some (changePhiloState g (right i), .putPop)
  | .putPop => some (unlock g, .thinking)
  | _ => none

/-- `philo`: the thread calls `use` and `put_back` in turn. -/
def philo : Program (Fin N) (Shared N) Pc Bool := fun i g pc spurious =>
  match pc with
  | .eating | .putSet | .putLeft | .putRight | .putPop => putBack i g pc
  | _ => use i spurious g pc

/-- The state `main` leaves before it creates the threads. -/
def Started (s : Pool (Fin N) (Shared N) Pc) : Prop :=
  s.shared = ⟨fun _ => .THINK, none, fun _ => false⟩ ∧ ∀ i, s.procs i = .thinking

/-- All interleavings of the philosophers. -/
def table (N : ℕ) : System (Pool (Fin N) (Shared N) Pc) (Fin N × Bool) := Program.system philo Started

/-! ## The ring -/

theorem left_right (i : Fin N) : left (right i) = i := by
  have hi := i.isLt
  apply Fin.ext
  simp only [left, right]
  rcases Nat.lt_or_ge (i.val + 1) N with h | h
  · rw [Nat.mod_eq_of_lt h, show i.val + 1 + N - 1 = i.val + N by omega, Nat.add_mod_right, Nat.mod_eq_of_lt hi]
  · have h1 : i.val + 1 = N := by omega
    rw [h1, Nat.mod_self, Nat.zero_add, Nat.mod_eq_of_lt (show N - 1 < N by omega)]; omega

theorem right_left (i : Fin N) : right (left i) = i := by
  have hi := i.isLt
  apply Fin.ext
  simp only [left, right]
  rcases Nat.eq_zero_or_pos i.val with h | h
  · rw [h, Nat.zero_add, Nat.mod_eq_of_lt (show N - 1 < N by omega), Nat.sub_add_cancel (show 1 ≤ N by omega),
      Nat.mod_self]
  · rw [show i.val + N - 1 = i.val - 1 + N by omega, Nat.add_mod_right,
      Nat.mod_eq_of_lt (show i.val - 1 < N by omega), Nat.sub_add_cancel h, Nat.mod_eq_of_lt hi]

/-- In a ring of two or more nobody is his own neighbour. -/
theorem right_ne (hN : 2 ≤ N) (i : Fin N) : right i ≠ i := by
  have hi := i.isLt
  intro h
  have h := congrArg Fin.val h
  simp only [right] at h
  rcases Nat.lt_or_ge (i.val + 1) N with hlt | hge
  · rw [Nat.mod_eq_of_lt hlt] at h; omega
  · rw [show i.val + 1 = N by omega, Nat.mod_self] at h; omega

/-! ## What `change_philo_state` does -/

/-- It changes nothing but a waiting philosopher, who then eats. -/
theorem changePhiloState_other {g : Shared N} {i j : Fin N} (h : j ≠ i ∨ g.philoState j ≠ .WAIT) :
    (changePhiloState g i).philoState j = g.philoState j := by
  unfold changePhiloState
  split
  · rename_i hc
    rcases h with h | h
    · exact Function.update_of_ne h _ _
    · by_cases hj : j = i
      · subst hj; exact absurd hc.1 h
      · exact Function.update_of_ne hj _ _
  · rfl

theorem changePhiloState_eq_EAT {g : Shared N} {i j : Fin N} :
    (changePhiloState g i).philoState j = .EAT ↔ g.philoState j = .EAT ∨
      (j = i ∧ g.philoState i = .WAIT ∧ g.philoState (left i) ≠ .EAT ∧ g.philoState (right i) ≠ .EAT) := by
  unfold changePhiloState
  split
  · rename_i hc
    by_cases hj : j = i
    · subst hj; simp [hc]
    · simp [hj]
  · rename_i hc
    constructor
    · exact .inl
    · rintro (h | ⟨-, h⟩)
      · exact h
      · exact absurd h hc

theorem changePhiloState_eq_THINK {g : Shared N} {i j : Fin N} :
    (changePhiloState g i).philoState j = .THINK ↔ g.philoState j = .THINK := by
  by_cases hw : j ≠ i ∨ g.philoState j ≠ .WAIT
  · rw [changePhiloState_other hw]
  · push Not at hw
    obtain ⟨rfl, hw⟩ := hw
    unfold changePhiloState
    split <;> simp [hw]

@[simp] theorem changePhiloState_mutex (g : Shared N) (i : Fin N) : (changePhiloState g i).mutex = g.mutex := by
  unfold changePhiloState; split <;> rfl

theorem lock_eq_some {g g' : Shared N} {i : Fin N} :
    lock g i = some g' ↔ g.mutex = none ∧ g' = { g with mutex := some i } := by
  unfold lock
  split
  · rename_i h; simp only [h, Option.some.injEq, true_and]; exact eq_comm
  · rename_i h; simp [h]

end Sysopy.Philosophers
