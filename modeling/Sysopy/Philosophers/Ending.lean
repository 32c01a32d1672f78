/-
SIGINT ends the program of cw09/zad1: once the handler has requested the cancellation of every thread, each thread
reaches a cancellation point after a bounded number of its steps, whoever else has ended by then and with whatever
`philo_state`, and main joins them all. A weight counts the steps that a thread may still take, and a thread whose
request is pending is never blocked for good.
-/
import Sysopy.Philosophers.Cancel

namespace Sysopy.Philosophers

open Sysopy.Conc

variable {N : ℕ}

/-! ## The steps that are left -/

/-- The steps a thread may still take when its cancellation has been requested. -/
def Pc.left : Pc → ℕ
  | .thinking => 7
  | .useSet => 6
  | .useChange => 5
  | .blocked => 5
  | .useTest => 4
  | .useWait => 3
  | .usePop => 3
  | .eating => 6
  | .putSet => 5
  | .putLeft => 4
  | .putRight => 3
  | .putPop => 2

def Place.left : Place → ℕ
  | .asleep _ => 8
  | .inside pc => pc.left
  | .printf => 2
  | .usleep _ => 1
  | .cancelledWait => 2
  | .cleanup => 1
  | .ended => 0

section Left

variable {g g' : Shared N} {i : Fin N} {x y : Place} {pc pc' : Pc} {spurious acts : Bool}

theorem left_le (x : Place) : x.left ≤ 8 := by
  cases x with
  | inside pc => cases pc <;> decide
  | usleep | asleep | printf | cancelledWait | cleanup | ended => simp [Place.left]

theorem left_philo (h : philo i g pc spurious = some (g', pc')) : (Place.after true pc').left < pc.left := by
  cases pc <;> simp only [philo, use, putBack, Option.some.injEq, Prod.mk.injEq] at h
  case thinking | eating =>
    obtain ⟨g₁, -, he⟩ := Option.map_eq_some_iff.1 h
    cases he
    decide
  case blocked =>
    split at h
    · obtain ⟨g₁, -, he⟩ := Option.map_eq_some_iff.1 h
      cases he
      decide
    · cases h
  case useTest =>
    obtain ⟨-, rfl⟩ := h
    split <;> decide
  case useSet | useChange | useWait | usePop | putSet | putLeft | putRight | putPop =>
    obtain ⟨-, rfl⟩ := h
    decide

/-- Every step of a thread brings it nearer to its end. -/
theorem left_thread (h : thread i spurious acts true g x = some (g', y)) : y.left < x.left := by
  cases x with
  | usleep r =>
    cases h
    exact Nat.zero_lt_one
  | asleep r =>
    obtain ⟨-, rfl⟩ := Prod.mk.inj (Option.some.inj h)
    cases r <;> split <;> decide
  | inside pc =>
    simp only [thread] at h
    split at h
    · rename_i hblocked
      cases h
      rw [hblocked.1]
      decide
    · obtain ⟨⟨g₁, pc'⟩, hp, he⟩ := Option.map_eq_some_iff.1 h
      cases he
      exact left_philo hp
  | printf =>
    obtain ⟨-, rfl⟩ := Prod.mk.inj (Option.some.inj h)
    split <;> decide
  | cancelledWait =>
    obtain ⟨g₁, -, he⟩ := Option.map_eq_some_iff.1 h
    cases he
    decide
  | cleanup =>
    cases h
    decide
  | ended => cases h

/-! ## No thread is blocked for good -/

/-- Only the mutex, and a wait that nobody has signalled, can hold a thread up. -/
theorem philo_enabled (g : Shared N) (i : Fin N) (hm : g.mutex = none ∨ holds pc = true) :
    ∃ r, philo i g pc true = some r := by
  have hlock : holds pc = false → ∃ g', lock g i = some g' := fun hpc => by
    have hnone : g.mutex = none := hm.resolve_right (by simp [hpc])
    exact ⟨_, lock_eq_some.2 ⟨hnone, rfl⟩⟩
  cases pc
  case thinking | blocked | eating =>
    obtain ⟨g', hg'⟩ := hlock rfl
    simp [philo, use, putBack, hg']
  case useSet | useChange | useTest | useWait | usePop | putSet | putLeft | putRight | putPop => exact ⟨_, rfl⟩

theorem thread_enabled (g : Shared N) (i : Fin N) (hx : x ≠ .ended) (hm : g.mutex = none ∨ x.holds = true) :
    ∃ r, thread i true true true g x = some r := by
  cases x with
  | usleep r | asleep r | printf | cleanup => exact ⟨_, rfl⟩
  | inside pc =>
    by_cases hblocked : pc = .blocked
    · subst hblocked
      exact ⟨_, rfl⟩
    · obtain ⟨r, hr⟩ := philo_enabled g i hm
      simp [thread, hblocked, hr]
  | cancelledWait =>
    have hnone : g.mutex = none := hm.resolve_right (by simp [Place.holds])
    simp [thread, lock_eq_some.2 ⟨hnone, rfl⟩]
  | ended => exact absurd rfl hx

end Left

/-! ## The end of the program -/

section Ending

variable {s s' : Process N}

/-- The handler has gone through its loop. -/
structure Interrupted (s : Process N) : Prop where
  handler : s.handler = some N
  cancelled : ∀ i, s.cancelled i = true

/-- The steps of the threads and of main that are left. -/
def remaining (s : Process N) : ℕ := tally Place.left s.places + (N - s.joined)

theorem Interrupted.step {a : Act N} (hI : Interrupted s) (h : next s a = some s') :
    Interrupted s' ∧ remaining s' < remaining s := by
  obtain ⟨hhandler, hcancelled⟩ := hI
  cases steps_of_next h with
  | @thread i spurious acts g x hx =>
    rw [hcancelled i] at hx
    refine ⟨⟨hhandler, hcancelled⟩, ?_⟩
    have hlt := left_thread hx
    have hsum := tally_update Place.left s.places i x
    simp only [remaining]
    omega
  | sigint hnone =>
    rw [hhandler] at hnone
    cases hnone
  | cancel k hk =>
    rw [hhandler] at hk
    have hlt := k.isLt
    have heq := Option.some.inj hk
    omega
  | join i hi _ =>
    refine ⟨⟨hhandler, hcancelled⟩, ?_⟩
    have hlt := i.isLt
    simp only [remaining]
    omega

/-- As long as a thread has not ended or is not joined, something can happen. -/
theorem Interrupted.progress (hN : 2 ≤ N) (hs : (process N).Reachable s) (hI : Interrupted s)
    (hstuck : ∀ a, next s a = none) : (∀ i, s.places i = .ended) ∧ ¬ s.joined < N := by
  have hthread : ∀ i, s.places i ≠ .ended → ¬ (s.shared.mutex = none ∨ (s.places i).holds = true) := fun i hi hm => by
    obtain ⟨r, hr⟩ := thread_enabled s.shared i hi hm
    have hnone := hstuck (.thread i true true)
    simp [next, hI.cancelled i, hr] at hnone
  have hended : ∀ i, s.places i = .ended := by
    by_contra hnot
    push Not at hnot
    obtain ⟨i, hi⟩ := hnot
    cases hm : s.shared.mutex with
    | none => exact hthread i hi (.inl hm)
    | some p =>
      -- the thread that holds the mutex goes on
      obtain ⟨hholds, hp⟩ := holder_goes_on hN hs hm
      exact hthread p hp (.inr hholds)
  refine ⟨hended, fun hlt => ?_⟩
  have hnone := hstuck .join
  simp [next, hlt, hended] at hnone

theorem joined_le (hs : (process N).Reachable s) : s.joined ≤ N := by
  refine hs.invariant (I := fun s => s.joined ≤ N) ?_ ?_
  · rintro s rfl
    exact Nat.zero_le _
  · intro s a s' _ hI hn
    cases steps_of_next hn with
    | thread _ _ _ | sigint _ | cancel _ _ => exact hI
    | join i hi _ =>
      have hlt := i.isLt
      simp only
      omega

/-- The loop of the handler has requested the cancellation of the threads it has come to. -/
theorem cancelled_of_handler (hs : (process N).Reachable s) {k : ℕ} (hk : s.handler = some k) {i : Fin N} (hi : i < k) :
    s.cancelled i = true := by
  refine hs.invariant (I := fun s => ∀ k : ℕ, s.handler = some k → ∀ i : Fin N, i < k → s.cancelled i = true)
    ?_ ?_ k hk i hi
  · rintro s rfl k ⟨⟩
  · intro s a s' _ hI hn
    cases steps_of_next hn with
    | thread _ _ _ | join _ _ _ => exact hI
    | sigint _ =>
      rintro k ⟨⟩ i hi
      exact absurd hi (Nat.not_lt_zero _)
    | cancel k hk =>
      rintro m ⟨⟩ i hi
      by_cases hik : i = k
      · simp [pthreadCancel, hik]
      · have hlt : i.val < k.val := by
          have hne : i.val ≠ k.val := fun h => hik (Fin.ext h)
          omega
        simpa only [pthreadCancel, Function.update_of_ne hik] using hI k hk i hlt

theorem remaining_le (s : Process N) : remaining s ≤ 9 * N := by
  have hsum : tally Place.left s.places ≤ N * 8 := by
    have hcard := Finset.sum_le_card_nsmul Finset.univ (fun i => (s.places i).left) 8 fun i _ => left_le _
    simpa [tally] using hcard
  simp only [remaining]
  omega

/-- Once the handler is through, every order of steps is over after at most nine for each philosopher, and where nothing
more can happen all threads have ended, main has joined them, and the mutex is free. -/
theorem interrupt_ends (hN : 2 ≤ N) (hs : (process N).Reachable s) (hhandler : s.handler = some N)
    (as : List (Act N)) (hr : (process N).run s as = some s') : as.length ≤ 9 * N ∧
    ((∀ a, (process N).next s' a = none) →
      (∀ i, s'.places i = .ended) ∧ s'.joined = N ∧ s'.shared.mutex = none) := by
  have hI : Interrupted s := ⟨hhandler, fun i => cancelled_of_handler hs hhandler i.isLt⟩
  obtain ⟨hI', hlength⟩ := System.run_length (w := remaining) (fun _ _ _ hI h => hI.step h) as hI hr
  have hs' : (process N).Reachable s' := .run as hs hr
  refine ⟨?_, fun hstuck => ?_⟩
  · have hle := remaining_le s
    omega
  · obtain ⟨hended, hjoined⟩ := hI'.progress hN hs' hstuck
    have hle := joined_le hs'
    refine ⟨hended, by omega, ?_⟩
    cases hm : s'.shared.mutex with
    | none => rfl
    | some p => exact absurd (hended p) (holder_goes_on hN hs' hm).2

end Ending

/-! ## Two philosophers -/

/-- Philosopher 0 has printed that he eats while philosopher 1 waits; then SIGINT arrives. -/
def interruptedMeal : List (Act 2) :=
  List.replicate 7 (.thread 0 false false) ++ List.replicate 7 (.thread 1 false false) ++ [.sigint, .cancel, .cancel]

/-- The wait is cancelled and cleaned up, `printf` is cancelled, and main joins both. -/
def endOfMeal : List (Act 2) := List.replicate 3 (.thread 1 false true) ++ [.thread 0 false true, .join, .join]

theorem interrupt_ends_meal : ∃ s s', (process 2).run ⟨⟨fun _ => .THINK, none, fun _ => false⟩,
      fun _ => .usleep .beforeUse, fun _ => false, none, 0⟩ interruptedMeal = some s ∧
    s.shared.philoState 0 = .EAT ∧ s.places 1 = .inside .blocked ∧ (process 2).run s endOfMeal = some s' ∧
    s'.joined = 2 ∧ s'.shared.mutex = none := by
  refine ⟨_, _, rfl, rfl, rfl, rfl, ?_⟩
  have hs := System.Reachable.run interruptedMeal (.init (S := process 2) rfl) rfl
  refine ((interrupt_ends le_rfl hs rfl endOfMeal rfl).2 ?_).2
  rintro (⟨i, spurious, acts⟩ | _ | _ | _)
  · fin_cases i <;> rfl
  · rfl
  · rfl
  · rfl

end Sysopy.Philosophers
