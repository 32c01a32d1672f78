/-
Neighbours at the table of cw09/zad1 never eat at the same time, for any table size and any
interleaving. The invariant ties each `philo_state[i]` to where the thread of philosopher `i` is;
only a thread inside `pthread_cond_wait` can have its state changed by a neighbour.
-/
import Sysopy.Philosophers.Model

namespace Sysopy.Philosophers

open Sysopy.Conc

variable {N : ℕ}

/-- The thread holds the mutex. -/
def holds : Pc → Bool
  | .thinking | .blocked | .eating => false
  | _ => true

/-- The values `philo_state[i]` can have while thread `i` is at a place. -/
def StateOK (st : PhiloState) : Pc → Prop
  | .thinking | .useSet => st = .THINK
  | .useChange | .useWait => st = .WAIT
  | .useTest | .blocked => st ≠ .THINK
  | .usePop | .eating | .putSet => st = .EAT
  | .putLeft | .putRight | .putPop => st = .THINK

/-- The invariant of the table. -/
structure Inv (g : Shared N) (procs : Fin N → Pc) : Prop where
  mutex : Owned holds procs g.mutex
  states : ∀ i, StateOK (g.philoState i) (procs i)
  apart : ∀ i, ¬ (g.philoState i = .EAT ∧ g.philoState (right i) = .EAT)

/-- `change_philo_state` lets a philosopher eat only beside neighbours who do not. -/
theorem changePhiloState_apart (hN : 2 ≤ N) {g : Shared N} (j : Fin N)
    (h : ∀ i, ¬ (g.philoState i = .EAT ∧ g.philoState (right i) = .EAT)) (i : Fin N) :
    ¬ ((changePhiloState g j).philoState i = .EAT ∧ (changePhiloState g j).philoState (right i) = .EAT) := by
  rw [changePhiloState_eq_EAT, changePhiloState_eq_EAT]
  rintro ⟨h1 | ⟨rfl, _, _, hr⟩, h2 | ⟨he, _, hl, _⟩⟩
  · exact h i ⟨h1, h2⟩
  · rw [← he, left_right] at hl; exact hl h1
  · exact hr h2
  · exact right_ne hN i he

/-- A thread in `pthread_cond_wait` stands a neighbour's `change_philo_state`. -/
theorem changePhiloState_stateOK {g : Shared N} {i j : Fin N} {pc : Pc} (h : StateOK (g.philoState i) pc)
    (hij : i ≠ j ∨ pc = .blocked ∨ g.philoState i ≠ .WAIT) : StateOK ((changePhiloState g j).philoState i) pc := by
  rcases hij with hij | rfl | hij
  · rw [changePhiloState_other (.inl hij)]; exact h
  · exact fun hc => h (changePhiloState_eq_THINK.1 hc)
  · rw [changePhiloState_other (.inr hij)]; exact h

section Step

variable {g g' : Shared N} {procs : Fin N → Pc} {i : Fin N} {pc' : Pc}

/-- A thread that is not in `pthread_cond_wait` and does not hold the mutex is not waiting. -/
theorem Inv.blocked_or_not_wait (hI : Inv g procs) {j : Fin N} (hj : holds (procs j) = false) :
    procs j = .blocked ∨ g.philoState j ≠ .WAIT := by
  have h := hI.states j
  generalize procs j = pc at h hj
  cases pc <;> simp_all [StateOK, holds]

/-- The states of the threads after thread `i` has called `change_philo_state(j)`. -/
theorem Inv.change_states (hI : Inv g procs) (hi : holds (procs i) = true) (j : Fin N)
    (hpc : StateOK ((changePhiloState g j).philoState i) pc') (k : Fin N) :
    StateOK ((changePhiloState g j).philoState k) (Function.update procs i pc' k) := by
  by_cases hk : k = i
  · subst hk; rw [Function.update_self]; exact hpc
  · rw [Function.update_of_ne hk]
    exact changePhiloState_stateOK (hI.states k) (.inr (hI.blocked_or_not_wait (hI.mutex.not_holds hi hk)))

/-- The states of the threads after thread `i` has set its own entry. -/
theorem Inv.set_states (hI : Inv g procs) {st : PhiloState} (hpc : StateOK st pc') (k : Fin N) :
    StateOK (Function.update g.philoState i st k) (Function.update procs i pc' k) := by
  by_cases hk : k = i
  · subst hk; rw [Function.update_self, Function.update_self]; exact hpc
  · rw [Function.update_of_ne hk, Function.update_of_ne hk]; exact hI.states k

/-- The states of the threads after thread `i` has only moved on. -/
theorem Inv.move_states (hI : Inv g procs) (hpc : StateOK (g.philoState i) pc') (k : Fin N) :
    StateOK (g.philoState k) (Function.update procs i pc' k) := by
  have := hI.set_states (i := i) hpc k
  rwa [Function.update_eq_self] at this

/-- A philosopher who sets his entry to anything but EAT keeps neighbours apart. -/
theorem Inv.set_apart (hI : Inv g procs) {st : PhiloState} (hst : st ≠ .EAT) (k : Fin N) :
    ¬ (Function.update g.philoState i st k = .EAT ∧ Function.update g.philoState i st (right k) = .EAT) := by
  have key : ∀ j, Function.update g.philoState i st j = .EAT → g.philoState j = .EAT := fun j hj => by
    by_cases hji : j = i
    · subst hji; rw [Function.update_self] at hj; exact absurd hj hst
    · rwa [Function.update_of_ne hji] at hj
  exact fun h => hI.apart k ⟨key _ h.1, key _ h.2⟩

/-- One step of one philosopher keeps the invariant. -/
theorem inv_step (hN : 2 ≤ N) {spurious : Bool} (hI : Inv g procs)
    (h : philo i g (procs i) spurious = some (g', pc')) : Inv g' (Function.update procs i pc') := by
  have hs := hI.states i
  cases hpc : procs i <;> rw [hpc] at h hs <;> simp only [philo, use, putBack, Option.some.injEq, Prod.mk.injEq] at h
  case thinking | eating =>
    obtain ⟨_, hl, he⟩ := Option.map_eq_some_iff.1 h
    obtain ⟨hm, rfl⟩ := lock_eq_some.1 hl
    cases he
    exact ⟨(hm ▸ hI.mutex).lock rfl, hI.move_states hs, hI.apart⟩
  case useSet =>
    obtain ⟨rfl, rfl⟩ := h
    exact ⟨hI.mutex.keep (by rw [hpc]; rfl), hI.set_states rfl, hI.set_apart (by decide)⟩
  case useChange =>
    obtain ⟨rfl, rfl⟩ := h
    refine ⟨?_, hI.change_states (by rw [hpc]; rfl) i ?_, changePhiloState_apart hN i hI.apart⟩
    · rw [changePhiloState_mutex]; exact hI.mutex.keep (by rw [hpc]; rfl)
    · intro hc
      rw [changePhiloState_eq_THINK, hs] at hc
      cases hc
  case useTest =>
    obtain ⟨rfl, rfl⟩ := h
    split
    · rename_i hw
      exact ⟨hI.mutex.keep (by rw [hpc]; rfl), hI.move_states hw, hI.apart⟩
    · rename_i hw
      -- out of the `while`: a hungry philosopher that no longer waits eats
      refine ⟨hI.mutex.keep (by rw [hpc]; rfl), hI.move_states ?_, hI.apart⟩
      cases hst : g.philoState i with
      | THINK => exact absurd hst hs
      | WAIT => exact absurd hst hw
      | EAT => rfl
  case useWait =>
    obtain ⟨rfl, rfl⟩ := h
    -- the wait gives the mutex back; a neighbour may set the entry to EAT meanwhile
    refine ⟨hI.mutex.unlock (p := i) (by rw [hpc]; rfl) rfl, hI.move_states ?_, hI.apart⟩
    exact fun hc => by rw [hs] at hc; cases hc
  case blocked =>
    split at h
    · obtain ⟨_, hl, he⟩ := Option.map_eq_some_iff.1 h
      obtain ⟨hm, rfl⟩ := lock_eq_some.1 hl
      cases he
      exact ⟨(hm ▸ hI.mutex).lock rfl, hI.move_states hs, hI.apart⟩
    · cases h
  case usePop | putPop =>
    obtain ⟨rfl, rfl⟩ := h
    exact ⟨hI.mutex.unlock (p := i) (by rw [hpc]; rfl) rfl, hI.move_states hs, hI.apart⟩
  case putSet =>
    obtain ⟨rfl, rfl⟩ := h
    exact ⟨hI.mutex.keep (by rw [hpc]; rfl), hI.set_states rfl, hI.set_apart (by decide)⟩
  case putLeft | putRight =>
    obtain ⟨rfl, rfl⟩ := h
    refine ⟨?_, hI.change_states (by rw [hpc]; rfl) _ ?_, changePhiloState_apart hN _ hI.apart⟩
    · rw [changePhiloState_mutex]; exact hI.mutex.keep (by rw [hpc]; rfl)
    · exact changePhiloState_eq_THINK.2 hs

end Step

theorem started_inv {s : Pool (Fin N) (Shared N) Pc} (h : Started s) : Inv s.shared s.procs := by
  obtain ⟨hg, hp⟩ := h
  rw [hg]
  refine ⟨.of_none fun i => by rw [hp i]; rfl, fun i => by rw [hp i]; rfl, fun i hc => ?_⟩
  cases hc.1

theorem reachable_inv (hN : 2 ≤ N) {s : Pool (Fin N) (Shared N) Pc} (h : (table N).Reachable s) :
    Inv s.shared s.procs :=
  Program.invariant (fun _ => started_inv) (fun _ _ _ _ _ _ hI hs => inv_step hN hI hs) h

/-- In every run of a table of two or more, a philosopher that has returned from `use` and is not yet in
the critical section of `put_back` is in EAT, and no two neighbours are both in EAT. -/
theorem neighbours_apart (hN : 2 ≤ N) {s : Pool (Fin N) (Shared N) Pc} (h : (table N).Reachable s) :
    (∀ i, s.procs i = .eating → s.shared.philoState i = .EAT) ∧
    ∀ i, ¬ (s.shared.philoState i = .EAT ∧ s.shared.philoState (right i) = .EAT) := by
  have hI := reachable_inv hN h
  refine ⟨fun i hi => ?_, hI.apart⟩
  have := hI.states i
  rwa [hi] at this

def emptyTable : Pool (Fin 5) (Shared 5) Pc := ⟨⟨fun _ => .THINK, none, fun _ => false⟩, fun _ => .thinking⟩

theorem emptyTable_started : Started emptyTable := ⟨rfl, fun _ => rfl⟩

/-- Philosopher 0 of five goes through `use`. -/
theorem neighbours_apart_five : ∃ s, (table 5).run emptyTable (List.replicate 5 (0, false)) = some s ∧
    s.procs 0 = .eating ∧ s.shared.philoState 0 = .EAT := by
  refine ⟨_, rfl, rfl, ?_⟩
  exact (neighbours_apart (by decide)
    (System.Reachable.run (List.replicate 5 (0, false)) (.init emptyTable_started) rfl)).1 0 rfl

end Sysopy.Philosophers
